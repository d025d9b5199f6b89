import AeraRecovery.Lib.Staging
import AeraRecovery.Payload.Review

namespace AeraRecovery.Payload.Extract

open Lib Bytes Checks Commands Staging Steps Storage Extraction Preflight Review List Option

inductive Node
  | file (contents : Bytes)
  | other

abbrev Directory := Bytes → Option Node

def imageName (name : Bytes) : Bytes := name ++ ascii ".img"

/-- The libraries that unpack the data of an operation into a buffer of the given size. -/
structure Decoders where
  bz2 : Bytes → Nat → Option Bytes
  xz : Bytes → Nat → Option Bytes
  zstd : Bytes → Nat → Option Bytes

def decode (decoders : Decoders) (type : OperationType) (input : Bytes) (count : Nat) : Option Bytes :=
  match type with
  | .replace => if input.length = count then some input else none
  | .replaceBz => decoders.bz2 input count
  | .replaceZstd => decoders.zstd input count
  | .replaceXz => decoders.xz input count
  | _ => none

/-- What the system answers: the message of a read that fails before the package is checked, the free space of the
output directory if it can be opened, whether there is an Otaripper that may not run, and which calls fail later. -/
structure Environment extends Faults Bytes where
  early : Option Bytes
  available : Option Nat
  otaripperDenied : Bool

structure Package where
  file : Bytes
  entry : ZipEntry
  manifest : DeltaArchiveManifest

def package (lib : Libraries) (file : Option Bytes) : Option Package := do
  let file ← file
  let archive ← lib.openArchive file
  let entry ← archive payloadBin
  let manifest ← lib.parse (manifestData file entry)
  some ⟨file, entry, manifest⟩

section

variable (lib : Libraries) (decoders : Decoders) (faults : Faults Bytes)

def writeExtents (block : UInt64) (filename decoded : Bytes) : Nat → List Extent → Command Bytes (Opened Bytes) Unit
  | _, [] => pure ()
  | offset, e :: es => do
      let length := (e.num * block).toNat
      call faults (fun f => pwrite f (e.start * block).toNat (decoded.slice offset length))
        (ascii "Cannot write " ++ filename)
      writeExtents block filename decoded (offset + length) es

variable (pkg : Package)

def extractOperation (filename : Bytes) (op : InstallOperation) : Command Bytes (Opened Bytes) Unit :=
  if op.type.empty then pure ()
  else do
    let failed := ascii "Cannot decode or verify " ++ filename
    let count := op.dstExtents.foldl (fun n e => n + e.num * block pkg.manifest) 0
    observe faults failed
    let input ← ofExcept (require (readExactly pkg.file
      (pkg.entry.offset + dataStart pkg.file pkg.entry + op.offset.toNat) op.length.toNat) failed)
    ofExcept (ensure (op.hash.length = sha256Length ∧ lib.sha256 input = op.hash) failed)
    let decoded ← ofExcept (require (decode decoders op.type input count.toNat) failed)
    writeExtents faults (block pkg.manifest) filename decoded 0 op.dstExtents

def verifyImage (filename : Bytes) (p : PartitionUpdate) : Command Bytes (Opened Bytes) Unit := do
  let image ← get
  ofExcept (ensure (p.size.toNat ≤ image.contents.length) (ascii "Cannot verify " ++ filename))
  let pieces := buffers (256 * 1024 - 1) (image.contents.take p.size.toNat)
  pieces.forM fun _ => observe faults (ascii "Cannot verify " ++ filename)
  let failed := ascii "Image hash or storage verification failed: " ++ filename
  ofExcept (ensure (lib.sha256 pieces.flatten = p.hash.take sha256Length) failed)
  observe faults failed

def extractPartition (p : PartitionUpdate) : Command Bytes (Opened Bytes) Unit := do
  let filename := imageName p.partitionName
  call faults (fun f => f.take p.size.toNat ++ replicate (p.size.toNat - f.length) 0)
    (ascii "Cannot allocate " ++ filename)
  p.operations.forM (extractOperation lib decoders faults pkg filename)
  verifyImage lib faults filename p

def plan : Plan Bytes Bytes Node Bytes PartitionUpdate Unit where
  node := .file
  empty := []
  name p := imageName p.partitionName
  taken p := ascii "Cannot create " ++ imageName p.partitionName ++ ascii " (existing files are never overwritten)"
  body := extractPartition lib decoders faults pkg

end

/-- The part of `ProcessImages` before the first image is created. -/
def prepare (lib : Libraries) (env : Environment) (file : Option Bytes) (manifestHash : Bytes) (names : List Bytes) :
    Except Bytes (Package × List PartitionUpdate) := do
  env.early.elim (pure ()) .error
  let partitions ← processImages lib file manifestHash names
  let pkg ← require (package lib file) (ascii "Unsupported or truncated payload")
  let available ← require env.available (ascii "Cannot access extraction storage")
  let total := partitions.foldl (fun n p => n + p.size) 0
  ensure (total.toNat + 16 * 1024 * 1024 ≤ available) (ascii "Not enough free storage for selected images")
  ensure (env.otaripperDenied = false) (ascii "Otaripper exists but cannot be executed")
  pure (pkg, partitions)

/-- `ExtractImages` with the native decoder. The result is the error, if any, and the output directory. -/
def extractImages (lib : Libraries) (decoders : Decoders) (env : Environment) (file : Option Bytes)
    (manifestHash : Bytes) (names : List Bytes) (directory : Directory) : Except Bytes Unit × Directory :=
  match prepare lib env file manifestHash names with
  | .error e => (.error e, directory)
  | .ok (pkg, partitions) =>
    transact (do
      let _ ← stage env.toFaults (plan lib decoders env.toFaults pkg) partitions
      pure ()) directory

section

variable {lib : Libraries} {decoders : Decoders} {faults : Faults Bytes} {pkg : Package} {filename : Bytes}

theorem triple_writeExtents {size block : UInt64} {decoded : Bytes} {es : List Extent} {offset : Nat}
    (hes : ∀ e ∈ es, Extent.Inside (size.toNat / block.toNat) e) :
    Triple (fun s => s.contents.length = size.toNat) (writeExtents faults block filename decoded offset es)
      (fun _ s => s.contents.length = size.toNat) fun _ _ => True := by
  induction es generalizing offset with
  | nil => exact triple_pure fun _ hs => hs
  | cons e es ih =>
    obtain ⟨he, hes⟩ := forall_mem_cons.mp hes
    refine triple_bind (triple_call (fun _ _ _ _ => trivial) fun s hs => ?_) fun _ => ih hes
    have hslice : (decoded.slice offset (e.num * block).toNat).length ≤ (e.num * block).toNat :=
      length_take_le _ _
    have hfits := he.fits
    rw [he.toNat_num] at hslice
    rw [length_pwrite, hs]
    rw [he.toNat_start, he.toNat_num, hs]
    omega

variable {p : PartitionUpdate}

theorem triple_extractOperation {dataSize : Nat} {op : InstallOperation}
    (hp : Extractable p (block pkg.manifest) dataSize) (hop : op ∈ p.operations) :
    Triple (fun s => s.contents.length = p.size.toNat) (extractOperation lib decoders faults pkg filename op)
      (fun _ s => s.contents.length = p.size.toNat) fun _ _ => True := by
  rw [extractOperation]
  by_cases hempty : op.type.empty = true
  · rw [if_pos hempty]
    exact triple_pure fun _ hs => hs
  · rw [if_neg hempty]
    refine triple_bind (triple_observe (fun _ _ _ _ => trivial) (C := fun c : Bytes => c.length = p.size.toNat)) fun _ => ?_
    refine triple_try (fun input _ => ?_) fun _ _ _ _ => trivial
    refine triple_check (fun _ => ?_) fun _ _ _ => trivial
    exact triple_try (fun decoded _ => triple_writeExtents (hp.operations op hop).extents) fun _ _ _ _ => trivial

def Good (lib : Libraries) (p : PartitionUpdate) (contents : Bytes) : Prop :=
  contents.length = p.size.toNat ∧ lib.sha256 contents = p.hash

theorem triple_verifyImage (hhash : p.hash.length = sha256Length) {E : Bytes → Opened Bytes → Prop}
    (hfault : ∀ n, faults.fails n = true → ∀ e s, E e s) {image : Bytes} (hlength : image.length = p.size.toNat)
    (hbad : lib.sha256 image ≠ p.hash → ∀ e s, E e s) :
    Triple (fun s => s.contents = image) (verifyImage lib faults filename p)
      (fun _ s => s.contents = image ∧ lib.sha256 image = p.hash) E := by
  refine triple_get fun s hs => triple_check (fun _ => ?_) fun hshort => ?_
  · have hall : s.contents.take p.size.toNat = image := by rw [hs, ← hlength, take_length]
    have hkeep : Triple (fun s' : Opened Bytes => s'.contents = image)
        ((buffers (256 * 1024 - 1) (s.contents.take p.size.toNat)).forM
          fun _ => observe faults (ascii "Cannot verify " ++ filename))
        (fun _ s' => s'.contents = image) E :=
      triple_forM (I := fun _ (s' : Opened Bytes) => s'.contents = image) fun _ _ _ _ =>
        triple_observe hfault (C := fun c => c = image)
    refine triple_bind (hkeep.mono (fun s' hs' => hs' ▸ hs) (fun _ _ h => h) fun _ _ h => h) fun _ =>
      triple_check (fun hsum => ?_) fun hsum s' _ => hbad ?_ _ s'
    · rw [buffers_flatten, hall, ← hhash, take_length] at hsum
      exact (triple_observe hfault (C := fun c => c = image)).mono (fun _ h => h) (fun _ _ h => ⟨h, hsum⟩) fun _ _ h => h
    · rwa [buffers_flatten, hall, ← hhash, take_length] at hsum
  · rw [hs, hlength] at hshort
    exact absurd le_rfl hshort

theorem triple_extractPartition {dataSize : Nat} (hp : Extractable p (block pkg.manifest) dataSize) :
    Triple (fun s => s.contents = []) (extractPartition lib decoders faults pkg p)
      (fun _ s => Good lib p s.contents) fun _ _ => True := by
  have hallocate : ∀ s : Opened Bytes, s.contents = [] →
      (s.contents.take p.size.toNat ++ replicate (p.size.toNat - s.contents.length) 0).length = p.size.toNat := by
    intro s hs
    rw [hs, take_nil, nil_append, length_replicate, length_nil, Nat.sub_zero]
  refine triple_bind (triple_call (fun _ _ _ _ => trivial) (Q := fun _ s => s.contents.length = p.size.toNat) hallocate)
    fun _ => ?_
  refine triple_bind (triple_forM (I := fun _ (s : Opened Bytes) => s.contents.length = p.size.toNat)
    fun done op todo hl => ?_) fun _ s hs => ?_
  · exact triple_extractOperation hp (by rw [hl]; exact mem_append_right _ mem_cons_self)
  · refine (triple_verifyImage hp.hash (fun _ _ _ _ => trivial) hs fun _ _ _ => trivial).mono (fun _ h => h)
      (fun _ s' hs' => ?_) (fun _ _ h => h) s rfl
    exact ⟨hs'.1 ▸ hs, hs'.1 ▸ hs'.2⟩

end

variable {names : List Bytes} {partitions : List PartitionUpdate} {manifestHash : Bytes}

theorem processImages_preflight {lib : Libraries} {file : Option Bytes} {pkg : Package}
    (h : processImages lib file manifestHash names = .ok partitions) (hpkg : package lib file = some pkg) :
    lib.sha256 (manifestData pkg.file pkg.entry) = manifestHash ∧
      preflight pkg.manifest names (dataSize pkg.file pkg.entry) = .ok partitions := by
  simp only [processImages, bind_ok_iff, ensure_ok_iff, require_ok_iff, exists_const] at h
  obtain ⟨-, -, bytes, hfile, archive, harchive, entry, hentry, ⟨-, hoffset, -⟩, head, hhead, -, ⟨hsize, -⟩, data,
    hdata, ⟨-, hhash⟩, manifest, hmanifest, hpreflight⟩ := h
  obtain ⟨-, -, rfl⟩ := (readExactly_eq_some_iff (by decide)).mp hhead
  obtain ⟨-, -, rfl⟩ := (readExactly_eq_some_iff hsize).mp hdata
  have hsame : package lib file = some ⟨bytes, entry, manifest⟩ := by
    rw [package, hfile]
    simp only [bind_eq_bind, bind_some, harchive, hentry]
    exact bind_eq_some_iff.mpr ⟨manifest, hmanifest, rfl⟩
  obtain rfl := some.inj (hpkg.symm.trans hsame)
  exact ⟨hhash, hpreflight⟩

theorem prepare_ok {lib : Libraries} {env : Environment} {file : Option Bytes} {pkg : Package}
    (h : prepare lib env file manifestHash names = .ok (pkg, partitions)) :
    package lib file = some pkg ∧ processImages lib file manifestHash names = .ok partitions := by
  simp only [prepare, bind_ok_iff, ensure_ok_iff, require_ok_iff, exists_const, pure_ok_iff, Prod.mk.injEq] at h
  obtain ⟨-, -, _, hprocess, _, hpkg, -, -, -, -, rfl, rfl⟩ := h
  exact ⟨hpkg, hprocess⟩

def Extracted (lib : Libraries) (file : Option Bytes) (manifestHash : Bytes) (names : List Bytes)
    (before after : Directory) : Prop :=
  ∃ pkg partitions, package lib file = some pkg ∧ lib.sha256 (manifestData pkg.file pkg.entry) = manifestHash ∧
    partitions.Sublist pkg.manifest.partitions ∧ (partitions.map PartitionUpdate.partitionName).Perm names ∧
    Added Node.file (fun p => imageName p.partitionName) (Good lib) partitions before after

theorem extractImages_spec (lib : Libraries) (decoders : Decoders) (env : Environment) (file : Option Bytes)
    (manifestHash : Bytes) (names : List Bytes) (directory : Directory) :
    AllOrNothing directory (fun _ => Extracted lib file manifestHash names directory)
      (extractImages lib decoders env file manifestHash names directory) := by
  rw [extractImages]
  cases hprepare : prepare lib env file manifestHash names with
  | error e => rfl
  | ok prepared =>
    obtain ⟨pkg, partitions⟩ := prepared
    obtain ⟨hpkg, hprocess⟩ := prepare_ok hprepare
    obtain ⟨hhash, hpreflight⟩ := processImages_preflight hprocess hpkg
    obtain ⟨hsublist, hperm⟩ := preflight_perm hpreflight
    refine allOrNothing_transact (triple_bind (triple_stage (fun x => Good lib x.1) fun p hp => ?_)
      fun results => triple_pure fun w hw => ?_)
    · exact triple_extractPartition ((check_ok_iff _ _ _).mp
        ((extractionError_eq_empty_iff _ _ _).mp (preflight_accepts hpreflight p hp)))
    · exact ⟨pkg, partitions, hpkg, hhash, hsublist, hperm, hw.2.added.of_zip hw.1⟩

end AeraRecovery.Payload.Extract
