import AeraRecovery.Payload.Preflight

namespace AeraRecovery.Payload.Review

open Lib Bytes Checks Steps Extraction Preflight List
open PartitionUpdate (partitionName)

structure Partition where
  name : Bytes
  bytes : UInt64
  extractionError : String
  sha256 : Bytes

def Partition.extractable (p : Partition) : Bool := p.extractionError = ""

/-- What a review says about a package, as far as a full flash looks at it. -/
structure Info where
  isPayload : Bool := false
  valid : Bool := false
  incremental : Bool := false
  expandedBytes : UInt64 := 0
  manifestHash : Bytes := []
  partitions : List Partition := []
  error : String := ""

structure ZipEntry where
  stored : Bool
  offset : Int
  uncompressedLength : Nat

/-- The libraries: the ZIP directory of a file, SHA-256, the protobuf parser, and the review of other packages. -/
structure Libraries where
  openArchive : Bytes → Option (Bytes → Option ZipEntry)
  sha256 : Bytes → Bytes
  parse : Bytes → Option DeltaArchiveManifest
  inspectImageZip : Bytes → Info
  length_sha256 : ∀ d, (sha256 d).length = sha256Length

/-- Both `ReadExactly` and `Read`. -/
def readExactly (file : Bytes) (offset : Int) (bytes : Nat) : Option Bytes :=
  if bytes = 0 then some []
  else if 0 ≤ offset ∧ offset.toNat + bytes ≤ file.length then some (file.slice offset.toNat bytes) else none

def payloadBin : Bytes := ascii "payload.bin"

def inspectPartition (block dataSize : UInt64) (info : Info) (p : PartitionUpdate) : Except Info Info := do
  ensure (ValidName p.partitionName) { info with error := "The manifest contains an invalid partition name." }
  let entry : Partition := ⟨p.partitionName, p.size, Extraction.extractionError p block dataSize, p.hash⟩
  ensure (entry.bytes ≤ 0xffffffffffffffff - info.expandedBytes)
    { info with error := "The manifest partition sizes overflow." }
  pure { info with
    expandedBytes := info.expandedBytes + entry.bytes
    incremental := info.incremental || p.oldPartitionInfo.isSome || p.operations.any fun op =>
      !op.srcExtents.isEmpty || op.srcSha256Hash.isSome || !op.type.full
    partitions := info.partitions ++ [entry] }

def inspectPayload (lib : Libraries) (file : Bytes) (entry : ZipEntry) : Except Info Info := do
  let info : Info := { isPayload := true }
  ensure entry.stored { info with
    error := "payload.bin is compressed inside the ZIP and cannot be streamed by the recovery installer." }
  let badHeader := { info with error := "payload.bin has an invalid update payload header." }
  ensure (24 ≤ entry.uncompressedLength) badHeader
  let header ← require (readExactly file entry.offset 24) badHeader
  ensure (header.take 4 = ascii "CrAU") badHeader
  let formatVersion := be (header.slice 4 8)
  let manifestBytes := be (header.slice 12 8)
  let signatureBytes := if formatVersion ≥ 2 then be (header.slice 20 4) else 0
  let headerBytes := if formatVersion ≥ 2 then 24 else 20
  ensure (¬ (formatVersion ≠ 2 ∨ manifestBytes = 0 ∨ manifestBytes > 64 * 1024 * 1024 ∨ manifestBytes > 2 ^ 31 - 1 ∨
      headerBytes + manifestBytes + signatureBytes > entry.uncompressedLength))
    { info with error := "The payload manifest header is unsupported or truncated." }
  let manifestData ← require (readExactly file (entry.offset + headerBytes) manifestBytes)
    { info with error := "The payload manifest could not be read." }
  let info := { info with manifestHash := lib.sha256 manifestData }
  let manifest ← require (lib.parse manifestData)
    { info with error := "The payload manifest is malformed or uses an unsupported schema." }
  ensure (manifest.partitions.length ≤ 512)
    { info with error := "The payload contains too many partition entries." }
  let dataSize := entry.uncompressedLength - headerBytes - manifestBytes - signatureBytes
  let info ← manifest.partitions.foldlM (inspectPartition (block manifest) dataSize.toUInt64) info
  ensure (info.partitions ≠ []) { info with error := "The payload manifest contains no partitions." }
  pure { info with valid := true }

def inspectZip (lib : Libraries) (file : Option Bytes) : Info :=
  match file with
  | none => { error := "The selected package could not be opened." }
  | some file =>
    match lib.openArchive file with
    | none => { error := "The selected file is not a valid ZIP package." }
    | some archive =>
      match archive payloadBin with
      | none => { lib.inspectImageZip file with isPayload := false }
      | some entry =>
        match inspectPayload lib file entry with
        | .ok info | .error info => info

structure PayloadFlashTarget where
  name : Bytes
  path : Bytes
  bytes : UInt64
  raw : Bool
  device : UInt64

structure Planning where
  uniqueNames : List Bytes := []
  uniquePaths : List Bytes := []
  rawDevices : List UInt64 := []
  planned : List Bytes := []

def planPartition (targets : List PayloadFlashTarget) (protectedPartitions : List Bytes) (s : Planning)
    (p : Partition) : Except Bytes Planning := do
  ensure (p.name ∉ s.uniqueNames) (ascii "Duplicate payload partition: " ++ p.name)
  let s := { s with uniqueNames := s.uniqueNames ++ [p.name] }
  if p.name ∈ protectedPartitions then pure s
  else do
    ensure (p.extractable ∧ p.bytes ≠ 0 ∧ p.sha256.length = 32)
      (ascii "Fast flash cannot process " ++ p.name ++ ascii ". Use normal installation.")
    let noTarget := ascii "No safe flash target for " ++ p.name ++ ascii ". Use normal installation."
    let target ← require (targets.find? fun t => t.name = p.name) noTarget
    ensure (target.path ≠ []) noTarget
    ensure (target.raw = true → p.bytes ≤ target.bytes ∧ target.device ≠ 0) noTarget
    ensure (target.path ∉ s.uniquePaths) noTarget
    ensure (target.raw = true → target.device ∉ s.rawDevices) noTarget
    pure { s with
      uniquePaths := s.uniquePaths ++ [target.path]
      rawDevices := if target.raw then s.rawDevices ++ [target.device] else s.rawDevices
      planned := s.planned ++ [p.name] }

/-- What `PlanFullFlash` returns and what it leaves in the variables of its caller. -/
structure Plan where
  ok : Bool
  names : List Bytes
  error : Bytes

def planFullFlash (info : Info) (targets : List PayloadFlashTarget) (vars : Plan) (protectedPartitions : List Bytes) :
    Plan :=
  let vars := { vars with names := [] }
  let planned : Except Bytes (List Bytes) := do
    ensure (info.valid ∧ info.isPayload ∧ ¬ info.incremental ∧ info.partitions ≠ [])
      (ascii "Fast flash requires a full, non-incremental OTA. Use normal installation.")
    let s ← info.partitions.foldlM (planPartition targets protectedPartitions) {}
    ensure (s.planned ≠ []) (ascii "No unprotected payload images remain to flash.")
    pure s.planned
  match planned with
  | .ok names => { vars with ok := true, names }
  | .error error => { vars with ok := false, error }

/-- `ProcessImages` up to the point where it touches a target. `preflight` looks at the selection once more. -/
def processImages (lib : Libraries) (file : Option Bytes) (manifestHash : Bytes) (names : List Bytes) :
    Except Bytes (List PartitionUpdate) := do
  ensure (names ≠ [] ∧ names.length ≤ 512) (ascii "No valid partition selection")
  ensure names.Nodup (ascii "Duplicate partition selection")
  let file ← require file (ascii "Cannot open package")
  let archive ← require (lib.openArchive file) (ascii "Invalid ZIP package")
  let truncated := ascii "Unsupported or truncated payload"
  let entry ← require (archive payloadBin) truncated
  ensure (entry.stored ∧ 0 ≤ entry.offset ∧ 24 ≤ entry.uncompressedLength ∧ entry.offset.toNat ≤ file.length ∧
    entry.uncompressedLength ≤ file.length - entry.offset.toNat) truncated
  let header ← require (readExactly file entry.offset 24) truncated
  ensure (header.take 4 = ascii "CrAU" ∧ be (header.slice 4 8) = 2) truncated
  let manifestSize := be (header.slice 12 8)
  let dataStart := 24 + manifestSize + be (header.slice 20 4)
  ensure (manifestSize ≠ 0 ∧ manifestSize ≤ operationLimit.toNat ∧ dataStart ≤ entry.uncompressedLength)
    (ascii "Invalid payload header")
  let changed := ascii "Package changed since review; open it again"
  let bytes ← require (readExactly file (entry.offset + 24) manifestSize) changed
  ensure (manifestHash.length = sha256Length ∧ lib.sha256 bytes = manifestHash) changed
  let manifest ← require (lib.parse bytes) (ascii "Invalid payload manifest")
  preflight manifest names (entry.uncompressedLength - dataStart).toUInt64

variable {file : Bytes}

theorem readExactly_eq_some_iff {offset : Int} {bytes : Nat} {out : Bytes} (h : bytes ≠ 0) :
    readExactly file offset bytes = some out ↔
      0 ≤ offset ∧ offset.toNat + bytes ≤ file.length ∧ out = file.slice offset.toNat bytes := by
  rw [readExactly, if_neg h]
  by_cases hin : 0 ≤ offset ∧ offset.toNat + bytes ≤ file.length
  · rw [if_pos hin, Option.some_inj, ← and_assoc, and_iff_right hin]
    exact eq_comm
  · rw [if_neg hin]
    exact iff_of_false nofun fun h => hin ⟨h.1, h.2.1⟩

def header (file : Bytes) (entry : ZipEntry) : Bytes := file.slice entry.offset.toNat 24

def manifestSize (file : Bytes) (entry : ZipEntry) : Nat := be ((header file entry).slice 12 8)

def dataStart (file : Bytes) (entry : ZipEntry) : Nat :=
  24 + manifestSize file entry + be ((header file entry).slice 20 4)

def dataSize (file : Bytes) (entry : ZipEntry) : UInt64 :=
  (entry.uncompressedLength - dataStart file entry).toUInt64

def manifestData (file : Bytes) (entry : ZipEntry) : Bytes :=
  file.slice (entry.offset + 24).toNat (manifestSize file entry)

def needsSource (op : InstallOperation) : Bool :=
  !op.srcExtents.isEmpty || op.srcSha256Hash.isSome || !op.type.full

def listed (block dataSize : UInt64) (p : PartitionUpdate) : Partition :=
  ⟨p.partitionName, p.size, Extraction.extractionError p block dataSize, p.hash⟩

structure Reviewed (lib : Libraries) (file : Bytes) (entry : ZipEntry) (manifest : DeltaArchiveManifest)
    (info : Info) : Prop where
  directory : ∃ archive, lib.openArchive file = some archive ∧ archive payloadBin = some entry
  stored : entry.stored = true
  length : 24 ≤ entry.uncompressedLength
  inside : 0 ≤ entry.offset ∧ entry.offset.toNat + 24 + manifestSize file entry ≤ file.length
  magic : (header file entry).take 4 = ascii "CrAU"
  version : be ((header file entry).slice 4 8) = 2
  size : 0 < manifestSize file entry ∧ manifestSize file entry ≤ 64 * 1024 * 1024
  start : dataStart file entry ≤ entry.uncompressedLength
  hash : info.manifestHash = lib.sha256 (manifestData file entry)
  parsed : lib.parse (manifestData file entry) = some manifest
  count : manifest.partitions.length ≤ 512
  partitions : info.partitions = manifest.partitions.map (listed (block manifest) (dataSize file entry))
  incremental : info.incremental =
    manifest.partitions.any fun p => p.oldPartitionInfo.isSome || p.operations.any needsSource

variable {info : Info} {ps : List PartitionUpdate}

theorem inspectPartitions_ok {block dataSize : UInt64} {start : Info}
    (hstart : start.incremental = false ∧ start.partitions = [])
    (h : ps.foldlM (inspectPartition block dataSize) start = .ok info) :
    info.manifestHash = start.manifestHash ∧ info.partitions = ps.map (listed block dataSize) ∧
      info.incremental = ps.any fun p => p.oldPartitionInfo.isSome || p.operations.any needsSource := by
  refine foldlM_prefix (I := fun done info => info.manifestHash = start.manifestHash ∧
    info.partitions = done.map (listed block dataSize) ∧
    info.incremental = done.any fun p => p.oldPartitionInfo.isSome || p.operations.any needsSource)
    (fun done p s s' hs hstep => ?_) ⟨rfl, hstart.2, hstart.1⟩ h
  simp only [inspectPartition, bind_ok_iff, ensure_ok_iff, exists_const, pure_ok_iff] at hstep
  obtain ⟨-, -, rfl⟩ := hstep
  obtain ⟨hhash, hpartitions, hincremental⟩ := hs
  refine ⟨hhash, ?_, ?_⟩
  · rw [map_append, ← hpartitions]
    rfl
  · rw [any_append, ← hincremental, Bool.or_assoc]
    simp only [any_cons, any_nil, Bool.or_false]
    rfl

variable {lib : Libraries} {entry : ZipEntry}

theorem reviewed_of_inspectPayload
    (hdirectory : ∃ archive, lib.openArchive file = some archive ∧ archive payloadBin = some entry)
    (h : inspectPayload lib file entry = .ok info) : ∃ manifest, Reviewed lib file entry manifest info := by
  simp only [inspectPayload, bind_ok_iff, ensure_ok_iff, require_ok_iff, exists_const, pure_ok_iff] at h
  obtain ⟨hstored, hlength, head, hhead, hmagic, hchecks, data, hdata, manifest, hmanifest, hcount, out, hfold, -,
    rfl⟩ := h
  obtain ⟨hoffset, hin, rfl⟩ := (readExactly_eq_some_iff (by decide)).mp hhead
  simp only [not_or, not_not, not_lt, gt_iff_lt] at hchecks
  obtain ⟨hversion, hpos, hlimit, -, hstart⟩ := hchecks
  simp only [hversion, ge_iff_le, le_refl, if_true] at hstart hdata hfold
  obtain ⟨-, hin', rfl⟩ := (readExactly_eq_some_iff hpos).mp hdata
  have hsum : entry.uncompressedLength - 24 - manifestSize file entry - be ((header file entry).slice 20 4) =
      entry.uncompressedLength - dataStart file entry := by
    rw [Nat.sub_sub, Nat.sub_sub, dataStart, add_assoc]
  obtain ⟨hhash, hpartitions, hincremental⟩ := inspectPartitions_ok ⟨rfl, rfl⟩ hfold
  refine ⟨manifest, hdirectory, hstored, hlength, ⟨hoffset, ?_⟩, hmagic, hversion, ⟨pos_of_ne_zero hpos, hlimit⟩,
    hstart, hhash, hmanifest, hcount, ?_, hincremental⟩
  · rw [manifestSize, header]
    omega
  · rw [hpartitions, dataSize, ← hsum]
    rfl

variable {manifest : DeltaArchiveManifest} {names : List Bytes}

theorem Reviewed.processImages_iff
    (h : Reviewed lib file entry manifest info) (hnames : names ≠ [] ∧ names.length ≤ 512) (hnodup : names.Nodup) :
    processImages lib (some file) info.manifestHash names = .ok ps ↔
      entry.uncompressedLength ≤ file.length - entry.offset.toNat ∧
        preflight manifest names (dataSize file entry) = .ok ps := by
  obtain ⟨archive, harchive, hentry⟩ := h.directory
  obtain ⟨hoffset, hin⟩ := h.inside
  have hheader : readExactly file entry.offset 24 = some (header file entry) :=
    (readExactly_eq_some_iff (by decide)).mpr ⟨hoffset, by omega, rfl⟩
  have hdata : readExactly file (entry.offset + 24) (manifestSize file entry) = some (manifestData file entry) :=
    (readExactly_eq_some_iff h.size.1.ne').mpr ⟨by omega, by omega, rfl⟩
  have hlimit : manifestSize file entry ≤ operationLimit.toNat := h.size.2
  have hstart := h.start
  rw [manifestSize] at hdata hlimit
  have hsize : be ((header file entry).slice 12 8) ≠ 0 := h.size.1.ne'
  rw [processImages]
  simp only [bind_ok_iff, ensure_ok_iff, require_ok_iff, exists_const, Option.some.injEq, exists_eq_left', harchive,
    hentry, hheader, hdata, h.parsed, h.hash, lib.length_sha256, h.magic, h.version, h.stored, h.length, hnames, hnodup, hoffset,
    and_true, true_and, ne_eq, not_false_eq_true, hsize, hlimit]
  have hfile : entry.offset.toNat ≤ file.length := by omega
  constructor
  · rintro ⟨⟨-, hfits⟩, -, hpreflight⟩
    exact ⟨hfits, hpreflight⟩
  · rintro ⟨hfits, hpreflight⟩
    exact ⟨⟨hfile, hfits⟩, hstart, hpreflight⟩

def sizes (ps : List PartitionUpdate) : Nat := (ps.map fun p => p.size.toNat).sum

/-- Only the total of the selected sizes can stop the loop over a manifest that has passed the review. -/
theorem checkPartitions_iff {block dataSize : UInt64} {seen : Progress}
    (hnodup : (seen.unique ++ ps.map partitionName).Nodup)
    (hfull : ∀ p ∈ ps, ∀ op ∈ p.operations, incremental p op = false)
    (hready : ∀ p ∈ ps, p.partitionName ∈ names → extractionError p block dataSize = "")
    (htotal : seen.total.toNat ≤ 2 ^ 63 - 1) :
    (∃ out, ps.foldlM (checkPartition names block dataSize) seen = .ok out) ↔
      seen.total.toNat + sizes (ps.filter fun p => p.partitionName ∈ names) ≤ 2 ^ 63 - 1 := by
  induction ps generalizing seen with
  | nil => exact iff_of_true ⟨seen, rfl⟩ htotal
  | cons p ps ih =>
    have hsplit : seen.unique ++ (p :: ps).map partitionName =
        (seen.unique ++ [p.partitionName]) ++ ps.map partitionName := by simp
    rw [hsplit] at hnodup
    have hnew : p.partitionName ∉ seen.unique := by
      have hfront := hnodup.sublist (sublist_append_left _ _)
      rw [nodup_append_comm, singleton_append, nodup_cons] at hfront
      exact hfront.1
    have hops : (p.operations.all fun op => !incremental p op) = true := by
      rw [all_eq_true]
      intro op hop
      rw [(forall_mem_cons.mp hfull).1 op hop]
      rfl
    have hfull' := (forall_mem_cons.mp hfull).2
    have hready' := (forall_mem_cons.mp hready).2
    simp only [foldlM_cons, bind_ok_iff]
    by_cases hselected : p.partitionName ∈ names
    · have hreason := (forall_mem_cons.mp hready).1 hselected
      have hlimit : p.size ≤ 0x7fffffffffffffff - seen.total ↔ seen.total.toNat + p.size.toNat ≤ 2 ^ 63 - 1 := by
        have hmax : (0x7fffffffffffffff : UInt64).toNat = 2 ^ 63 - 1 := rfl
        rw [UInt64.le_iff_toNat_le, UInt64.toNat_sub_of_le _ _ (by rwa [UInt64.le_iff_toNat_le, hmax]), hmax]
        omega
      rw [filter_cons_of_pos (by simpa using hselected)]
      simp only [checkPartition, bind_ok_iff, ensure_ok_iff, exists_const, hnew, hops, hselected, not_true_eq_false,
        not_false_eq_true, if_false, hreason, true_and, hlimit, pure_ok_iff]
      obtain ⟨next, hnext⟩ : ∃ next : Progress, next =
        ⟨seen.unique ++ [p.partitionName], seen.total + p.size, seen.partitions ++ [p]⟩ := ⟨_, rfl⟩
      have hsum : seen.total.toNat + sizes (p :: ps.filter fun q => decide (q.partitionName ∈ names)) =
          seen.total.toNat + p.size.toNat + sizes (ps.filter fun q => decide (q.partitionName ∈ names)) := by
        rw [sizes, sizes, map_cons, sum_cons, add_assoc]
      have hstep : seen.total.toNat + p.size.toNat ≤ 2 ^ 63 - 1 →
          next.total.toNat = seen.total.toNat + p.size.toNat := by
        intro hle
        rw [hnext, UInt64.toNat_add]
        exact Nat.mod_eq_of_lt (by omega)
      rw [hsum, ← hnext]
      have hnodup' : (next.unique ++ ps.map partitionName).Nodup := by rwa [hnext]
      constructor
      · rintro ⟨out, _, ⟨hle, rfl⟩, hrest⟩
        rw [← hstep hle]
        exact (ih hnodup' hfull' hready' (hstep hle ▸ hle)).mp ⟨out, hrest⟩
      · intro hle
        have hhere : seen.total.toNat + p.size.toNat ≤ 2 ^ 63 - 1 := (Nat.le_add_right _ _).trans hle
        rw [← hstep hhere] at hle
        obtain ⟨out, hrest⟩ := (ih hnodup' hfull' hready' (hstep hhere ▸ hhere)).mpr hle
        exact ⟨out, next, ⟨hhere, rfl⟩, hrest⟩
    · rw [filter_cons_of_neg (by simpa using hselected)]
      simp only [checkPartition, bind_ok_iff, ensure_ok_iff, exists_const, hnew, hops, hselected,
        not_false_eq_true, if_true, true_and, pure_ok_iff, exists_eq_left']
      exact ih hnodup hfull' hready' htotal

theorem preflight_iff {dataSize : UInt64}
    (hnames : names ≠ [] ∧ names.length ≤ 512) (hdistinct : names.Nodup) (hcount : manifest.partitions.length ≤ 512)
    (hnodup : (manifest.partitions.map partitionName).Nodup)
    (hfull : ∀ p ∈ manifest.partitions, ∀ op ∈ p.operations, incremental p op = false)
    (hready : ∀ p ∈ manifest.partitions, p.partitionName ∈ names → extractionError p (block manifest) dataSize = "")
    (hselected : (manifest.partitions.filter fun p => p.partitionName ∈ names).length = names.length) :
    (∃ ps, preflight manifest names dataSize = .ok ps) ↔
      sizes (manifest.partitions.filter fun p => p.partitionName ∈ names) ≤ 2 ^ 63 - 1 := by
  have hloop : (∃ out, manifest.partitions.foldlM (checkPartition names (block manifest) dataSize) {} = .ok out) ↔ _ :=
    checkPartitions_iff hnodup hfull hready (Nat.zero_le _)
  rw [UInt64.toNat_zero, zero_add] at hloop
  rw [← hloop]
  simp only [preflight, bind_ok_iff, ensure_ok_iff, exists_const, pure_ok_iff]
  constructor
  · rintro ⟨ps, -, -, -, out, hout, -, -⟩
    exact ⟨out, hout⟩
  · rintro ⟨out, hout⟩
    have hlength : out.partitions.length = names.length := by rw [checkPartitions_selected hout, hselected]
    exact ⟨_, hnames, hdistinct, hcount, out, hout, hlength, rfl⟩

def SafeTargets (targets : List PayloadFlashTarget) (names : List Bytes) : Prop :=
  ∃ chosen : List PayloadFlashTarget, chosen.map PayloadFlashTarget.name = names ∧
    (∀ t ∈ chosen, (targets.find? fun u => u.name = t.name) = some t ∧ t.path ≠ []) ∧
    (chosen.map PayloadFlashTarget.path).Nodup ∧
    ((chosen.filter PayloadFlashTarget.raw).map PayloadFlashTarget.device).Nodup

structure Planned (targets : List PayloadFlashTarget) (protectedPartitions : List Bytes) (done : List Partition)
    (s : Planning) : Prop where
  names : s.uniqueNames = done.map Partition.name
  nodup : (done.map Partition.name).Nodup
  planned : s.planned = (done.filter fun p => p.name ∉ protectedPartitions).map Partition.name
  ready : ∀ p ∈ done, p.name ∉ protectedPartitions → p.extractable = true
  chosen : ∃ chosen : List PayloadFlashTarget, chosen.map PayloadFlashTarget.name = s.planned ∧
    (∀ t ∈ chosen, (targets.find? fun u => u.name = t.name) = some t ∧ t.path ≠ []) ∧
    s.uniquePaths = chosen.map PayloadFlashTarget.path ∧ s.uniquePaths.Nodup ∧
    s.rawDevices = (chosen.filter PayloadFlashTarget.raw).map PayloadFlashTarget.device ∧ s.rawDevices.Nodup

variable {targets : List PayloadFlashTarget} {protectedPartitions : List Bytes}

theorem Planned.step {done : List Partition} {p : Partition} {s s' : Planning}
    (h : Planned targets protectedPartitions done s)
    (hstep : planPartition targets protectedPartitions s p = .ok s') :
    Planned targets protectedPartitions (done ++ [p]) s' := by
  simp only [planPartition, bind_ok_iff, ensure_ok_iff, exists_const] at hstep
  obtain ⟨hnew, hstep⟩ := hstep
  have hnames : s.uniqueNames ++ [p.name] = (done ++ [p]).map Partition.name := by
    rw [h.names, map_append]
    rfl
  have hnodup : ((done ++ [p]).map Partition.name).Nodup := by
    rw [← hnames]
    exact nodup_concat (h.names ▸ h.nodup) hnew
  split_ifs at hstep with hprotected
  · obtain rfl := pure_ok_iff.mp hstep
    refine ⟨hnames, hnodup, ?_, ?_, h.chosen⟩
    · rw [filter_append, filter_cons_of_neg (by simpa using hprotected), filter_nil, append_nil]
      exact h.planned
    · intro q hq hout
      rcases mem_append.mp hq with hq | hq
      · exact h.ready q hq hout
      · rw [mem_singleton.mp hq] at hout
        exact absurd hprotected hout
  · simp only [bind_ok_iff, ensure_ok_iff, require_ok_iff, exists_const, pure_ok_iff] at hstep
    obtain ⟨⟨hready, -, -⟩, target, htarget, hpath, -, hnewPath, hnewDevice, rfl⟩ := hstep
    have hmatch := find?_some htarget
    have hname : target.name = p.name := of_decide_eq_true hmatch
    obtain ⟨chosen, hchosen, hfound, hpaths, hpathsNodup, hdevices, hdevicesNodup⟩ := h.chosen
    refine ⟨hnames, hnodup, ?_, ?_, chosen ++ [target], ?_, ?_, ?_, nodup_concat hpathsNodup hnewPath, ?_, ?_⟩
    · rw [filter_append, filter_cons_of_pos (by simpa using hprotected), filter_nil, map_append, ← h.planned]
      rfl
    · intro q hq hout
      rcases mem_append.mp hq with hq | hq
      · exact h.ready q hq hout
      · rw [mem_singleton.mp hq]
        exact hready
    · rw [map_append, hchosen, map_singleton, hname]
    · intro t ht
      rcases mem_append.mp ht with ht | ht
      · exact hfound t ht
      · rw [mem_singleton.mp ht, hname]
        exact ⟨htarget, hpath⟩
    · rw [hpaths, map_append]
      rfl
    · cases hraw : target.raw <;> simp [filter_append, hraw, hdevices]
    · split_ifs with hraw
      · exact nodup_concat hdevicesNodup (hnewDevice hraw)
      · exact hdevicesNodup

def flashed (protectedPartitions : List Bytes) (manifest : DeltaArchiveManifest) : List PartitionUpdate :=
  manifest.partitions.filter fun p => p.partitionName ∉ protectedPartitions

variable {p : PartitionUpdate}

theorem mem_flashed_names (hp : p ∈ manifest.partitions) :
    p.partitionName ∈ (flashed protectedPartitions manifest).map partitionName ↔
      p.partitionName ∉ protectedPartitions := by
  rw [mem_map]
  constructor
  · rintro ⟨q, hq, hname⟩
    rw [← hname]
    exact of_decide_eq_true (mem_filter.mp hq).2
  · intro hout
    exact ⟨p, mem_filter.mpr ⟨hp, decide_eq_true hout⟩, rfl⟩

theorem filter_flashed_names (manifest : DeltaArchiveManifest) : (manifest.partitions.filter fun p =>
      p.partitionName ∈ (flashed protectedPartitions manifest).map partitionName) =
      flashed protectedPartitions manifest := by
  refine filter_congr fun p hp => ?_
  rw [decide_eq_decide]
  exact mem_flashed_names hp

theorem planFullFlash_ok {vars : Plan} (h : (planFullFlash info targets vars protectedPartitions).ok = true) :
    info.valid = true ∧ info.isPayload = true ∧ info.incremental = false ∧
      (planFullFlash info targets vars protectedPartitions).names ≠ [] ∧
      ∃ s, Planned targets protectedPartitions info.partitions s ∧
        (planFullFlash info targets vars protectedPartitions).names = s.planned := by
  rw [planFullFlash] at h ⊢
  split at h
  · next names hplan =>
    simp only [bind_ok_iff, ensure_ok_iff, exists_const, pure_ok_iff] at hplan
    obtain ⟨⟨hvalid, hpayload, hfull, -⟩, s, hfold, hne, rfl⟩ := hplan
    rw [Bool.not_eq_true] at hfull
    refine ⟨hvalid, hpayload, hfull, hne, s, ?_, rfl⟩
    refine foldlM_prefix (I := Planned targets protectedPartitions) (fun done p s s' hs hstep => hs.step hstep) ?_ hfold
    exact ⟨rfl, nodup_nil, rfl, by simp, [], rfl, by simp, rfl, nodup_nil, rfl, nodup_nil⟩
  · cases h

theorem planFullFlash_names_of_not_ok {vars : Plan}
    (h : (planFullFlash info targets vars protectedPartitions).ok = false) :
    (planFullFlash info targets vars protectedPartitions).names = [] := by
  rw [planFullFlash] at h ⊢
  split at h
  · cases h
  · rfl

theorem inspectPartition_valid {block dataSize : UInt64} {s s' : Info} (hs : s.valid = false)
    (hstep : inspectPartition block dataSize s p = .ok s') : s'.valid = false := by
  simp only [inspectPartition, bind_ok_iff, ensure_ok_iff, exists_const, pure_ok_iff] at hstep
  obtain ⟨-, -, rfl⟩ := hstep
  exact hs

theorem inspectPayload_errors (lib : Libraries) (file : Bytes) (entry : ZipEntry) :
    Errors (fun info => info.valid = false) (inspectPayload lib file entry) := by
  refine errors_bind (errors_ensure rfl) fun _ _ => errors_bind (errors_ensure rfl) fun _ _ => ?_
  refine errors_bind (errors_require rfl) fun header _ => errors_bind (errors_ensure rfl) fun _ _ => ?_
  refine errors_bind (errors_ensure rfl) fun _ _ => errors_bind (errors_require rfl) fun data _ => ?_
  refine errors_bind (errors_require rfl) fun manifest _ => errors_bind (errors_ensure rfl) fun _ _ => ?_
  refine errors_bind (errors_foldlM (I := fun s => s.valid = false) (fun p s s' => inspectPartition_valid)
    (fun p s hs => ?_) rfl) fun s hs => errors_bind (errors_ensure ?_) fun _ _ => errors_pure
  · exact errors_bind (errors_ensure hs) fun _ _ => errors_bind (errors_ensure hs) fun _ _ => errors_pure
  · exact foldlM_invariant (I := fun s => s.valid = false) (fun p _ s s' => inspectPartition_valid) rfl hs

theorem reviewed_of_inspectZip {file : Option Bytes} (hvalid : (inspectZip lib file).valid = true)
    (hpayload : (inspectZip lib file).isPayload = true) :
    ∃ bytes entry manifest, file = some bytes ∧ Reviewed lib bytes entry manifest (inspectZip lib file) := by
  cases file with
  | none => cases hvalid
  | some bytes =>
    cases harchive : lib.openArchive bytes with
    | none => simp [inspectZip, harchive] at hvalid
    | some archive =>
      cases hentry : archive payloadBin with
      | none => simp [inspectZip, harchive, hentry] at hpayload
      | some entry =>
        cases hinspect : inspectPayload lib bytes entry with
        | error info =>
          have hinvalid := inspectPayload_errors lib bytes entry info hinspect
          simp [inspectZip, harchive, hentry, hinspect, hinvalid] at hvalid
        | ok info =>
          have hinfo : inspectZip lib (some bytes) = info := by
            simp only [inspectZip, harchive, hentry, hinspect]
          obtain ⟨manifest, hreviewed⟩ := reviewed_of_inspectPayload ⟨archive, harchive, hentry⟩ hinspect
          exact ⟨bytes, entry, manifest, rfl, hinfo ▸ hreviewed⟩

theorem incremental_eq_false {op : InstallOperation} (hop : op ∈ p.operations)
    (h : (p.oldPartitionInfo.isSome || p.operations.any needsSource) = false) : incremental p op = false := by
  obtain ⟨hold, hops⟩ := (Bool.or_eq_false_iff).mp h
  have hsource := any_eq_false.mp hops op hop
  rw [Bool.not_eq_true, needsSource] at hsource
  rw [incremental, hold, Bool.false_or]
  exact hsource

theorem Reviewed.passes_iff (h : Reviewed lib file entry manifest info) (hfull : info.incremental = false)
    (hnodup : (manifest.partitions.map partitionName).Nodup) (hready : ∀ p ∈ manifest.partitions,
      p.partitionName ∈ (flashed protectedPartitions manifest).map partitionName →
      extractionError p (block manifest) (dataSize file entry) = "")
    (hne : (flashed protectedPartitions manifest).map partitionName ≠ []) :
    (∃ ps, processImages lib (some file) info.manifestHash
        ((flashed protectedPartitions manifest).map partitionName) = .ok ps) ↔
      entry.uncompressedLength ≤ file.length - entry.offset.toNat ∧
        sizes (flashed protectedPartitions manifest) ≤ 2 ^ 63 - 1 := by
  have hlength : ((flashed protectedPartitions manifest).map partitionName).length ≤ 512 := by
    rw [length_map]
    exact (length_filter_le _ _).trans h.count
  have hdistinct : ((flashed protectedPartitions manifest).map partitionName).Nodup :=
    hnodup.sublist (filter_sublist.map _)
  have hsteps : ∀ p ∈ manifest.partitions, ∀ op ∈ p.operations, Preflight.incremental p op = false := by
    intro p hp op hop
    rw [h.incremental, any_eq_false] at hfull
    exact incremental_eq_false hop (Bool.not_eq_true _ ▸ hfull p hp)
  simp only [h.processImages_iff ⟨hne, hlength⟩ hdistinct, exists_and_left]
  rw [preflight_iff ⟨hne, hlength⟩ hdistinct h.count hnodup hsteps hready (by rw [filter_flashed_names, length_map]),
    filter_flashed_names]

/-- A plan that succeeds on the review of a payload names exactly the partitions outside the protected set, with
targets of their own. The package then passes the preflight if and only if its payload lies inside the file and the
sizes of the planned images do not exceed `UINT64_MAX / 2`. -/
theorem planFullFlash_preflight_iff (lib : Libraries) (file : Option Bytes) (targets : List PayloadFlashTarget)
    (protectedPartitions : List Bytes) (vars : Plan) :
    ((planFullFlash (inspectZip lib file) targets vars protectedPartitions).ok = false →
      (planFullFlash (inspectZip lib file) targets vars protectedPartitions).names = []) ∧
    ((inspectZip lib file).valid = true →
      (planFullFlash (inspectZip lib file) targets vars protectedPartitions).ok = true →
      ∃ bytes entry manifest, file = some bytes ∧ Reviewed lib bytes entry manifest (inspectZip lib file) ∧
        (planFullFlash (inspectZip lib file) targets vars protectedPartitions).names =
          (flashed protectedPartitions manifest).map partitionName ∧
        (manifest.partitions.map partitionName).Nodup ∧
        SafeTargets targets (planFullFlash (inspectZip lib file) targets vars protectedPartitions).names ∧
        ((∃ ps, processImages lib file (inspectZip lib file).manifestHash
            (planFullFlash (inspectZip lib file) targets vars protectedPartitions).names = .ok ps) ↔
          entry.uncompressedLength ≤ bytes.length - entry.offset.toNat ∧
            sizes (flashed protectedPartitions manifest) ≤ 2 ^ 63 - 1)) := by
  refine ⟨planFullFlash_names_of_not_ok, fun _ hok => ?_⟩
  obtain ⟨hvalid, hpayload, hfull, hne, s, hplanned, hnames⟩ := planFullFlash_ok hok
  obtain ⟨bytes, entry, manifest, hfile, hreviewed⟩ := reviewed_of_inspectZip hvalid hpayload
  rw [hnames] at hne ⊢
  have hlisted : (manifest.partitions.map (listed (block manifest) (dataSize bytes entry))).map Partition.name =
      manifest.partitions.map partitionName := by
    rw [map_map]
    rfl
  have hflashed : s.planned = (flashed protectedPartitions manifest).map partitionName := by
    rw [hplanned.planned, hreviewed.partitions, filter_map, map_map]
    rfl
  have hnodup := hplanned.nodup
  rw [hreviewed.partitions, hlisted] at hnodup
  refine ⟨bytes, entry, manifest, hfile, hreviewed, hflashed, hnodup, ?_, ?_⟩
  · obtain ⟨chosen, hchosen, hfound, hpaths, hpathsNodup, hdevices, hdevicesNodup⟩ := hplanned.chosen
    exact ⟨chosen, hchosen, hfound, hpaths ▸ hpathsNodup, hdevices ▸ hdevicesNodup⟩
  · subst hfile
    have hready : ∀ p ∈ manifest.partitions,
        p.partitionName ∈ (flashed protectedPartitions manifest).map partitionName →
        extractionError p (block manifest) (dataSize bytes entry) = "" := by
      intro p hp hin
      have hmem : listed (block manifest) (dataSize bytes entry) p ∈ (inspectZip lib (some bytes)).partitions := by
        rw [hreviewed.partitions]
        exact mem_map_of_mem hp
      exact of_decide_eq_true (hplanned.ready _ hmem ((mem_flashed_names hp).mp hin))
    rw [hflashed] at hne ⊢
    exact hreviewed.passes_iff hfull hnodup hready hne

section

def zeroed (name : String) (size : UInt64) : PartitionUpdate where
  partitionName := ascii name
  newPartitionInfo := some ⟨some size, some (replicate 32 0)⟩
  operations := [{ type := .zero, dstExtents := [⟨some 0, some (size / 4096)⟩] }]

def threeImages (size : UInt64) : DeltaArchiveManifest :=
  ⟨none, [zeroed "odm" size, zeroed "system" size, zeroed "vendor" size]⟩

def payloadOnly (manifest : DeltaArchiveManifest) : Libraries where
  openArchive file := some fun name => if name = payloadBin then some ⟨true, 0, file.length⟩ else none
  sha256 _ := replicate 32 0
  parse _ := some manifest
  inspectImageZip _ := {}
  length_sha256 _ := length_replicate

def payloadFile : Bytes := ascii "CrAU" ++ [0, 0, 0, 0, 0, 0, 0, 2] ++ [0, 0, 0, 0, 0, 0, 0, 1] ++ [0, 0, 0, 0] ++ [7]

def logicalTargets : List PayloadFlashTarget :=
  [⟨ascii "odm", ascii "/odm", 0, false, 0⟩, ⟨ascii "system", ascii "/system", 0, false, 0⟩,
    ⟨ascii "vendor", ascii "/vendor", 0, false, 0⟩]

def planOf (lib : Libraries) : Plan := planFullFlash (inspectZip lib (some payloadFile)) logicalTargets ⟨false, [], []⟩ []

theorem planFullFlash_preflight_threeImages : (planOf (payloadOnly (threeImages 4096))).ok = true ∧
      ∃ ps, processImages (payloadOnly (threeImages 4096)) (some payloadFile) (replicate 32 0)
        (planOf (payloadOnly (threeImages 4096))).names = .ok ps := by
  refine ⟨rfl, ?_⟩
  obtain ⟨bytes, entry, manifest, hfile, hreviewed, -, -, -, hiff⟩ :=
    (planFullFlash_preflight_iff (payloadOnly (threeImages 4096)) (some payloadFile) logicalTargets []
      ⟨false, [], []⟩).2 rfl rfl
  obtain rfl := Option.some.inj hfile
  obtain rfl := Option.some.inj hreviewed.parsed
  obtain ⟨archive, harchive, hentry⟩ := hreviewed.directory
  obtain rfl := Option.some.inj harchive
  obtain rfl := Option.some.inj hentry
  exact hiff.mpr ⟨Nat.le_refl 25, by decide⟩

/-- Three images of 4 EiB pass the review, which adds up to `UINT64_MAX`. The preflight stops at half of it. -/
theorem processImages_rejects_reviewed :
    (inspectZip (payloadOnly (threeImages 0x4000000000000000)) (some payloadFile)).valid = true ∧
      (planOf (payloadOnly (threeImages 0x4000000000000000))).ok = true ∧
      processImages (payloadOnly (threeImages 0x4000000000000000)) (some payloadFile) (replicate 32 0)
        (planOf (payloadOnly (threeImages 0x4000000000000000))).names = .error (ascii "Selected sizes overflow") :=
  ⟨rfl, rfl, rfl⟩

end

end AeraRecovery.Payload.Review
