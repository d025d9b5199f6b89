import AeraRecovery.Payload.Extract
import AeraRecovery.Payload.FirmwareArb
import AeraRecovery.Payload.WriteLoop

namespace AeraRecovery.Payload.InspectArb

open Lib Bytes Checks Commands Staging Storage Tiling Extract Extraction FirmwareArb Image List Option UInt64
  Preflight Review
open LittleEndian (bytes)

def kLimit : UInt64 := 16 * 1024 * 1024

/-- Types 0, 1, 8, 6 and 14. -/
def scanned : OperationType → Bool
  | .replace | .replaceBz | .replaceXz | .zero | .replaceZstd => true
  | _ => false

def addExtent (size block expanded : UInt64) (e : Extent) : Except String UInt64 := do
  ensure (¬ (e.start > size / block ∨ e.num > size / block ∨ e.num * block > size - e.start * block ∨
    e.num * block > kLimit - expanded)) "Invalid xbl_config extents"
  pure (expanded + e.num * block)

def copyExtents (block : UInt64) (output : Bytes) : Nat → List Extent → Bytes → Bytes
  | _, [], image => image
  | pos, e :: es, image =>
    copyExtents block output (pos + (e.num * block).toNat) es
      (pwrite image (e.start * block).toNat (output.slice pos (e.num * block).toNat))

section

variable (lib : Review.Libraries) (decoders : Decoders) (pkg : Package)

def unpack (op : InstallOperation) (expanded : Nat) : Option Bytes := do
  let data ← readExactly pkg.file (pkg.entry.offset + dataStart pkg.file pkg.entry + op.offset.toNat) op.length.toNat
  if op.dataSha256Hash = none ∨ (op.hash.length = sha256Length ∧ lib.sha256 data = op.hash) then
    decode decoders op.type data expanded
  else none

def expand (op : InstallOperation) (expanded : Nat) : Except String Bytes :=
  if op.type = .zero then pure (replicate expanded 0)
  else require (unpack lib decoders pkg op expanded) "Cannot decode or verify xbl_config"

/-- One turn of the loop over the operations. The state is the image with `work`. -/
def scanOperation (size : UInt64) (state : Bytes × UInt64) (op : InstallOperation) :
    Except String (Bytes × UInt64) := do
  let length := dataSize pkg.file pkg.entry
  ensure (scanned op.type = true) "xbl_config requires an unsupported or source-dependent operation"
  let expanded ← op.dstExtents.foldlM (addExtent size (block pkg.manifest)) 0
  ensure (¬ (op.length > kLimit ∨ expanded + op.length > 4 * kLimit - state.2 ∨ op.offset > length ∨
    op.length > length - op.offset)) "xbl_config operation exceeds scan limits"
  let output ← expand lib decoders pkg op expanded.toNat
  pure (copyExtents (block pkg.manifest) output 0 op.dstExtents state.1, state.2 + (expanded + op.length))

def scanImage (p : PartitionUpdate) : Except String Bytes := do
  ensure (¬ (p.size = 0 ∨ p.size > kLimit ∨ block pkg.manifest = 0 ∨ block pkg.manifest > 65536 ∨
    p.operations.length > 4096)) "xbl_config exceeds scan limits"
  ensure (p.hash.length = sha256Length) "xbl_config has no SHA-256 integrity hash"
  let state ← p.operations.foldlM (scanOperation lib decoders pkg p.size) (replicate p.size.toNat 0, 0)
  ensure (lib.sha256 state.1 = p.hash) "xbl_config image hash mismatch"
  pure state.1

def xblConfig : Option PartitionUpdate :=
  pkg.manifest.partitions.find? fun p => p.partitionName = ascii "xbl_config"

def inspectArb : Option Arb :=
  match xblConfig pkg with
  | none => some ⟨false, 0, "No xbl_config image in this payload"⟩
  | some p => match scanImage lib decoders pkg p with
    | .error detail => some ⟨false, 0, detail⟩
    | .ok image => readFirmwareArb Words.wrapping image

def quiet : Faults Bytes := ⟨fun _ => false, fun _ => []⟩

/-- The image of a partition that `ProcessImages` writes. -/
def writtenImage (p : PartitionUpdate) : Option Bytes :=
  match (extractPartition lib decoders quiet pkg p).start ⟨[], 0⟩ with
  | (.ok _, image) => some image.contents
  | (.error _, _) => none

end

def Reports (arb : Option Arb) (index : Nat) : Prop := ∃ a, arb = some a ∧ a.available = true ∧ a.index = index

structure Sized (decoders : Decoders) : Prop where
  bz2 : ∀ input n out, decoders.bz2 input n = some out → out.length = n
  xz : ∀ input n out, decoders.xz input n = some out → out.length = n
  zstd : ∀ input n out, decoders.zstd input n = some out → out.length = n

section

variable (lib : Review.Libraries) (decoders : Decoders) (pkg : Package) (op : InstallOperation)

def output : Option Bytes :=
  if op.type.empty then some (replicate (span (block pkg.manifest).toNat op.dstExtents) 0)
  else unpack lib decoders pkg op (span (block pkg.manifest).toNat op.dstExtents)

def decoded : Bytes := (output lib decoders pkg op).getD []

structure Described (p : PartitionUpdate) (image : Bytes) : Prop where
  decodes : ∀ op ∈ p.operations, (output lib decoders pkg op).isSome
  contents : image = referenceImage (decoded lib decoders pkg) (block pkg.manifest).toNat p.size.toNat p.operations
  hash : lib.sha256 image = p.hash

/-- What `InspectArb` asks of an operation beyond `ExtractionError` and the limits. -/
structure Scannable (op : InstallOperation) : Prop where
  type : scanned op.type = true
  offset : op.offset ≤ dataSize pkg.file pkg.entry

def work : Nat := span (block pkg.manifest).toNat op.dstExtents + op.length.toNat

structure Limits (p : PartitionUpdate) : Prop where
  size : p.size ≤ kLimit
  block : block pkg.manifest ≤ 65536
  operations : p.operations.length ≤ 4096
  length : ∀ op ∈ p.operations, op.length ≤ kLimit
  work : (p.operations.map (work pkg)).sum ≤ 4 * kLimit.toNat

end

section

variable {lib : Review.Libraries} {decoders : Decoders} {pkg : Package} {p : PartitionUpdate} {op : InstallOperation}

theorem length_decode (h : Sized decoders) {type : OperationType} {input out : Bytes} {n : Nat}
    (hout : decode decoders type input n = some out) : out.length = n := by
  cases type with
  | replace =>
    rw [decode, ite_none_right_eq_some] at hout
    rw [← some.inj hout.2, hout.1]
  | replaceBz => exact h.bz2 _ _ _ hout
  | replaceXz => exact h.xz _ _ _ hout
  | replaceZstd => exact h.zstd _ _ _ hout
  | _ => cases hout

theorem length_output (h : Sized decoders) {out : Bytes} (hout : output lib decoders pkg op = some out) :
    out.length = span (block pkg.manifest).toNat op.dstExtents := by
  rw [output] at hout
  split_ifs at hout with hempty
  · rw [← some.inj hout, length_replicate]
  · obtain ⟨data, -, hdata⟩ := bind_eq_some_iff.mp hout
    rw [ite_none_right_eq_some] at hdata
    exact length_decode h hdata.2

theorem length_decoded (hsized : Sized decoders) (hsome : (output lib decoders pkg op).isSome) :
    (decoded lib decoders pkg op).length = span (block pkg.manifest).toNat op.dstExtents := by
  obtain ⟨d, hd⟩ := isSome_iff_exists.mp hsome
  rw [decoded, hd]
  exact length_output hsized hd

theorem copyExtents_eq {size block : UInt64} {es : List Extent}
    (hes : ∀ e ∈ es, Extent.Inside (size.toNat / block.toNat) e) (d : Bytes) (pos : Nat) (f : Bytes) :
    copyExtents block d pos es f = patch f (split (d.drop pos) (es.map (Extent.bytes block.toNat))) := by
  induction es generalizing pos f with
  | nil => rfl
  | cons e es ih =>
    obtain ⟨he, hes⟩ := forall_mem_cons.mp hes
    rw [copyExtents, ih hes, he.toNat_start, he.toNat_num, map_cons, split, Extent.bytes_length, drop_drop]
    rfl

theorem addExtents_eq {size block : UInt64} (hsize : size ≤ kLimit) {es : List Extent}
    (hes : ∀ e ∈ es, Extent.Inside (size.toNat / block.toNat) e) (n : UInt64)
    (hfits : n.toNat + span block.toNat es ≤ size.toNat) :
    es.foldlM (addExtent size block) n = .ok (es.foldl (fun n e => n + e.num * block) n) := by
  induction es generalizing n with
  | nil => rfl
  | cons e es ih =>
    obtain ⟨he, hes⟩ := forall_mem_cons.mp hes
    have hend := he.2
    have hinside := he.fits
    rw [UInt64.le_iff_toNat_le] at hsize
    rw [span_cons] at hfits
    have hpass : ¬ (e.start > size / block ∨ e.num > size / block ∨ e.num * block > size - e.start * block ∨
        e.num * block > kLimit - n) := by
      have hle : e.start * block ≤ size := by rw [UInt64.le_iff_toNat_le, he.toNat_start]; omega
      have hn : n ≤ kLimit := by rw [UInt64.le_iff_toNat_le]; omega
      simp only [gt_iff_lt, not_or, UInt64.not_lt, UInt64.le_iff_toNat_le, UInt64.toNat_div,
        UInt64.toNat_sub_of_le _ _ hle, UInt64.toNat_sub_of_le _ _ hn, he.toNat_start, he.toNat_num]
      omega
    have hlt := size.toNat_lt
    have hadd : (n + e.num * block).toNat = n.toNat + e.num.toNat * block.toNat := by
      rw [UInt64.toNat_add, he.toNat_num, Nat.mod_eq_of_lt (by omega)]
    rw [foldlM_cons, addExtent, ensure, if_pos hpass]
    exact ih hes _ (by omega)

theorem empty_iff_zero (h : scanned op.type = true) : op.type.empty = true ↔ op.type = .zero := by
  generalize op.type = type at h
  cases type <;> simp_all [scanned, OperationType.empty]

theorem expand_eq (h : scanned op.type = true) :
    expand lib decoders pkg op (span (block pkg.manifest).toNat op.dstExtents) =
      require (output lib decoders pkg op) "Cannot decode or verify xbl_config" := by
  rw [expand, output]
  by_cases hzero : op.type = .zero
  · rw [if_pos hzero, if_pos ((empty_iff_zero h).mpr hzero)]
    rfl
  · rw [if_neg hzero, if_neg (mt (empty_iff_zero h).mp hzero)]

section

variable (hp : Extractable p (block pkg.manifest) (dataSize pkg.file pkg.entry).toNat)

include hp

theorem toNat_expanded (hop : op ∈ p.operations) :
    (op.dstExtents.foldl (fun n e => n + e.num * block pkg.manifest) 0).toNat =
      span (block pkg.manifest).toNat op.dstExtents := by
  have hspan := span_le_of_tiles hp.tiles hop
  have hsum := WriteLoop.toNat_sum (hp.operations op hop).extents 0 (by rwa [UInt64.toNat_zero, zero_add])
  rwa [UInt64.toNat_zero, zero_add] at hsum

theorem scanOperation_ok_iff (hlimits : Limits pkg p) (hop : op ∈ p.operations) {state out : Bytes × UInt64}
    (hwork : state.2.toNat + work pkg op ≤ 4 * kLimit.toNat) :
    scanOperation lib decoders pkg p.size state op = .ok out ↔
      (Scannable pkg op ∧ (output lib decoders pkg op).isSome) ∧
        (patch state.1 (pieces (decoded lib decoders pkg) (block pkg.manifest).toNat op),
          ofNat (state.2.toNat + work pkg op)) = out := by
  have hplain := hp.operations op hop
  have hexpanded := toNat_expanded hp hop
  have hspan := span_le_of_tiles hp.tiles hop
  have hfold := addExtents_eq hlimits.size hplain.extents 0 (by rwa [UInt64.toNat_zero, zero_add])
  generalize op.dstExtents.foldl (fun n e => n + e.num * block pkg.manifest) 0 = expanded at hexpanded hfold
  have hkLimit : kLimit.toNat = 16777216 := rfl
  rw [work, hkLimit] at hwork
  have hadd : (expanded + op.length).toNat = span (block pkg.manifest).toNat op.dstExtents + op.length.toNat := by
    rw [UInt64.toNat_add, hexpanded, Nat.mod_eq_of_lt (by omega)]
  have hsum : state.2 + (expanded + op.length) = ofNat (state.2.toNat + work pkg op) := by
    rw [← UInt64.toNat_inj, UInt64.toNat_add, hadd, UInt64.toNat_ofNat', work]
  have hcheck : ¬ (op.length > kLimit ∨ expanded + op.length > 4 * kLimit - state.2 ∨
      op.offset > dataSize pkg.file pkg.entry ∨ op.length > dataSize pkg.file pkg.entry - op.offset) ↔
      op.offset ≤ dataSize pkg.file pkg.entry := by
    have hbudget : (4 * kLimit - state.2).toNat = 67108864 - state.2.toNat :=
      UInt64.toNat_sub_of_le _ _ (UInt64.le_iff_toNat_le.mpr (show state.2.toNat ≤ 67108864 by omega))
    simp only [gt_iff_lt, not_or, UInt64.not_lt]
    refine ⟨fun h => h.2.2.1, fun hoffset => ⟨hlimits.length op hop, ?_, hoffset, ?_⟩⟩
    · rw [UInt64.le_iff_toNat_le, hadd, hbudget]
      omega
    · have hdata := hplain.data
      rw [UInt64.le_iff_toNat_le, UInt64.toNat_sub_of_le _ _ hoffset]
      split_ifs at hdata
      · rw [hdata, UInt64.toNat_zero]
        exact Nat.zero_le _
      · have hinside := hdata.inside
        omega
  simp only [scanOperation, hfold, bind_ok_iff, ensure_ok_iff, exists_const, hcheck, Except.ok.injEq,
    exists_eq_left', pure_ok_iff, hsum]
  constructor
  · rintro ⟨hscanned, hoffset, d, hd, rfl⟩
    rw [hexpanded, expand_eq hscanned, require_ok_iff] at hd
    refine ⟨⟨⟨hscanned, hoffset⟩, by rw [hd]; rfl⟩, ?_⟩
    rw [copyExtents_eq hplain.extents, pieces, decoded, hd]
    rfl
  · rintro ⟨⟨hscan, hsome⟩, rfl⟩
    obtain ⟨d, hd⟩ := isSome_iff_exists.mp hsome
    refine ⟨hscan.type, hscan.offset, d, by rw [hexpanded, expand_eq hscan.type, hd]; rfl, ?_⟩
    rw [copyExtents_eq hplain.extents, pieces, decoded, hd]
    rfl

theorem scanOperations_ok_iff (hlimits : Limits pkg p) {ops : List InstallOperation} (hops : ops ⊆ p.operations)
    {state out : Bytes × UInt64} (hwork : state.2.toNat + (ops.map (work pkg)).sum ≤ 4 * kLimit.toNat) :
    ops.foldlM (scanOperation lib decoders pkg p.size) state = .ok out ↔
      (∀ op ∈ ops, Scannable pkg op ∧ (output lib decoders pkg op).isSome) ∧
        (patch state.1 (ops.flatMap (pieces (decoded lib decoders pkg) (block pkg.manifest).toNat)),
          ofNat (state.2.toNat + (ops.map (work pkg)).sum)) = out := by
  induction ops generalizing state with
  | nil =>
    rw [foldlM_nil, pure_ok_iff, map_nil, sum_nil, add_zero, UInt64.ofNat_toNat]
    exact ⟨fun h => ⟨fun _ hop => absurd hop not_mem_nil, h⟩, fun h => h.2⟩
  | cons op ops ih =>
    rw [map_cons, sum_cons] at hwork
    have hkLimit : kLimit.toNat = 16777216 := rfl
    have hnext : (ofNat (state.2.toNat + work pkg op)).toNat = state.2.toNat + work pkg op :=
      toNat_ofNat_of_lt (show _ < 2 ^ 64 by omega)
    rw [cons_subset] at hops
    simp only [foldlM_cons, bind_ok_iff, scanOperation_ok_iff hp hlimits hops.1
      (show state.2.toNat + work pkg op ≤ 4 * kLimit.toNat by omega), and_assoc, exists_and_left, exists_eq_left']
    rw [ih hops.2 (by rw [hnext]; omega), hnext, forall_mem_cons, flatMap_cons, map_cons,
      sum_cons, patch, patch, patch, foldl_append, add_assoc]
    tauto

theorem scanImage_ok_iff (hlimits : Limits pkg p) {image : Bytes} : scanImage lib decoders pkg p = .ok image ↔
      (∀ op ∈ p.operations, Scannable pkg op) ∧ Described lib decoders pkg p image := by
  have hpos := hp.pos
  have hblock := hp.blockSize.pos
  have hheader : ¬ (p.size = 0 ∨ p.size > kLimit ∨ block pkg.manifest = 0 ∨ block pkg.manifest > 65536 ∨
      p.operations.length > 4096) := by
    simp only [not_or, gt_iff_lt, UInt64.not_lt, ← UInt64.toNat_inj, UInt64.toNat_zero, not_lt]
    exact ⟨hpos.ne', hlimits.size, hblock.ne', hlimits.block, hlimits.operations⟩
  have hwork : ((replicate p.size.toNat 0, 0) : Bytes × UInt64).2.toNat + (p.operations.map (work pkg)).sum ≤
      4 * kLimit.toNat := by
    rw [UInt64.toNat_zero, zero_add]
    exact hlimits.work
  simp only [scanImage, bind_ok_iff, ensure_ok_iff, exists_const, pure_ok_iff, hheader, hp.hash, not_false_eq_true,
    true_and, scanOperations_ok_iff hp hlimits (Subset.refl p.operations) hwork]
  constructor
  · rintro ⟨_, ⟨hall, rfl⟩, hhash, rfl⟩
    exact ⟨fun op hop => (hall op hop).1, fun op hop => (hall op hop).2, rfl, hhash⟩
  · rintro ⟨hscan, hdecodes, rfl, hhash⟩
    exact ⟨_, ⟨fun op hop => ⟨hscan op hop, hdecodes op hop⟩, rfl⟩, hhash, rfl⟩

omit hp in
theorem unpack_eq_some_iff (hhash : op.hash.length = sha256Length) {n : Nat} {d : Bytes} :
    unpack lib decoders pkg op n = some d ↔ ∃ input,
      readExactly pkg.file (pkg.entry.offset + dataStart pkg.file pkg.entry + op.offset.toNat) op.length.toNat =
        some input ∧ (op.hash.length = sha256Length ∧ lib.sha256 input = op.hash) ∧
        decode decoders op.type input n = some d := by
  have hcarried : op.dataSha256Hash ≠ none := by
    intro hnone
    rw [InstallOperation.hash, hnone] at hhash
    cases hhash
  simp only [unpack, bind_eq_bind, bind_eq_some_iff, ite_none_right_eq_some, hcarried, false_or]

variable {E : Bytes → Opened Bytes → Prop}

omit hp in
theorem no_fault_quiet (n : Nat) (h : quiet.fails n = true) (e : Bytes) (s : Opened Bytes) : E e s := by cases h

omit hp in
theorem triple_writeExtents_quiet {block : UInt64} {filename d : Bytes} {es : List Extent} {offset : Nat} {c : Bytes}
    : Triple (fun s => s.contents = c) (writeExtents quiet block filename d offset es)
      (fun _ s => s.contents = copyExtents block d offset es c) E := by
  induction es generalizing offset c with
  | nil => exact triple_pure fun _ hs => hs
  | cons e es ih =>
    refine triple_bind (triple_call no_fault_quiet fun s hs => ?_) fun _ => ih
    rw [hs]

theorem triple_extractOperation_quiet (hop : op ∈ p.operations) {filename c : Bytes} :
    Triple (fun s => s.contents = c) (extractOperation lib decoders quiet pkg filename op)
      (fun _ s => (output lib decoders pkg op).isSome ∧
        s.contents = patch c (dataPieces (decoded lib decoders pkg) (block pkg.manifest).toNat op))
      fun _ _ => ¬ (output lib decoders pkg op).isSome := by
  have hplain := hp.operations op hop
  rw [extractOperation, dataPieces]
  by_cases hempty : op.type.empty = true
  · rw [if_pos hempty, if_pos hempty]
    refine triple_pure fun s hs => ⟨?_, hs⟩
    rw [output, if_pos hempty]
    rfl
  · have hdata := hplain.data
    rw [if_neg hempty] at hdata
    have houtput : output lib decoders pkg op = _ := if_neg hempty
    rw [if_neg hempty, if_neg hempty]
    dsimp only
    rw [toNat_expanded hp hop]
    refine triple_bind (triple_observe no_fault_quiet (C := fun x => x = c)) fun _ => ?_
    have hunpack (hout : (output lib decoders pkg op).isSome = true) :=
      (unpack_eq_some_iff hdata.hash).mp (houtput.symm.trans (some_get hout).symm)
    refine triple_try (fun input hinput => triple_check (fun hhash => triple_try (fun d hd => ?_) ?_) ?_) ?_
    · have hd : output lib decoders pkg op = some d := by
        rw [houtput, unpack_eq_some_iff hdata.hash]
        exact ⟨input, require_ok_iff.mp hinput, hhash, require_ok_iff.mp hd⟩
      refine triple_writeExtents_quiet.mono (fun _ hs => hs) (fun _ s hs => ?_) fun _ _ h => h
      rw [hd, hs, copyExtents_eq hplain.extents, pieces, decoded, hd]
      exact ⟨rfl, rfl⟩
    · intro e hfail _ _ hout
      obtain ⟨input', hinput', -, hdecode⟩ := hunpack hout
      obtain rfl := some.inj ((require_ok_iff.mp hinput).symm.trans hinput')
      rw [hdecode] at hfail
      cases hfail
    · intro hhash s _ hout
      obtain ⟨input', hinput', hhash', -⟩ := hunpack hout
      obtain rfl := some.inj ((require_ok_iff.mp hinput).symm.trans hinput')
      exact hhash hhash'
    · intro e hfail _ _ hout
      obtain ⟨input, hinput, -⟩ := hunpack hout
      rw [hinput] at hfail
      cases hfail

theorem triple_extractPartition_quiet (hsized : Sized decoders) :
    Triple (fun s => s.contents = []) (extractPartition lib decoders quiet pkg p)
      (fun _ s => Described lib decoders pkg p s.contents) fun _ _ => ¬ ∃ image, Described lib decoders pkg p image := by
  have hallocate : ∀ s : Opened Bytes, s.contents = [] →
      (s.contents.take p.size.toNat ++ replicate (p.size.toNat - s.contents.length) 0) =
        replicate p.size.toNat 0 := by
    intro s hs
    rw [hs, take_nil, nil_append, length_nil, Nat.sub_zero]
  let written (done : List InstallOperation) : Bytes := patch (replicate p.size.toNat 0)
    (done.flatMap (dataPieces (decoded lib decoders pkg) (block pkg.manifest).toNat))
  refine triple_bind (triple_call no_fault_quiet (Q := fun _ s => s.contents = replicate p.size.toNat 0) hallocate)
    fun _ => ?_
  refine triple_bind (R := fun _ s => (∀ op ∈ p.operations, (output lib decoders pkg op).isSome) ∧
    s.contents = written p.operations) ?_ fun _ => triple_and fun hdecodes => ?_
  · refine (triple_forM (I := fun done (s : Opened Bytes) => (∀ op ∈ done, (output lib decoders pkg op).isSome) ∧
      s.contents = written done) fun done op todo hl => ?_).mono
        (fun s hs => ⟨fun _ hop => absurd hop not_mem_nil, hs⟩) (fun _ _ h => h) fun _ _ h => h
    have hop : op ∈ p.operations := by
      rw [hl]
      exact mem_append_right _ mem_cons_self
    refine triple_and fun hdone => (triple_extractOperation_quiet hp hop).mono (fun _ hs => hs) ?_ ?_
    · rintro _ s ⟨hsome, hs⟩
      refine ⟨forall_mem_append.mpr ⟨hdone, forall_mem_singleton.mpr hsome⟩, ?_⟩
      simp only [hs, written, flatMap_append, flatMap_singleton, patch, foldl_append]
    · rintro _ _ hnone ⟨image, himage⟩
      exact hnone (himage.decodes op hop)
  · have hlen : ∀ op ∈ p.operations, (decoded lib decoders pkg op).length =
        span (block pkg.manifest).toNat op.dstExtents := fun op hop => length_decoded hsized (hdecodes op hop)
    have hzero : ∀ op ∈ p.operations, op.type.empty = true → ∀ b ∈ decoded lib decoders pkg op, b = 0 := by
      intro op _ hempty b hb
      rw [decoded, output, if_pos hempty] at hb
      exact eq_of_mem_replicate hb
    have hwritten : written p.operations = referenceImage (decoded lib decoders pkg) (block pkg.manifest).toNat
        p.size.toNat p.operations := patch_dataPieces hp.tiles hlen hzero
    rw [hwritten]
    refine (triple_verifyImage hp.hash no_fault_quiet (length_referenceImage hp.tiles hlen) ?_).mono (fun _ hs => hs) ?_
      fun _ _ h => h
    · rintro hne _ _ ⟨image, himage⟩
      exact hne (himage.contents ▸ himage.hash)
    · rintro _ s ⟨hs, hhash⟩
      exact ⟨hdecodes, hs, by rw [hs, hhash]⟩

theorem writtenImage_eq_some_iff (hsized : Sized decoders) {image : Bytes} :
    writtenImage lib decoders pkg p = some image ↔ Described lib decoders pkg p image := by
  have hrun : Triple (fun s => s.contents = []) (extractPartition lib decoders quiet pkg p) _ _ :=
    triple_extractPartition_quiet hp hsized
  rw [writtenImage]
  rcases hstart : (extractPartition lib decoders quiet pkg p).start ⟨[], 0⟩ with ⟨e | a, s⟩
  · have hnone := hrun.error rfl hstart
    exact iff_of_false (fun h => by cases h) fun himage => hnone ⟨image, himage⟩
  · have hdescribed := hrun.ok rfl hstart
    constructor
    · rintro ⟨⟩
      exact hdescribed
    · intro himage
      exact congrArg some (hdescribed.contents.trans himage.contents.symm)

end

def Agrees (lib : Review.Libraries) (decoders : Decoders) (pkg : Package) (p : PartitionUpdate) : Prop :=
  ∀ k, Reports (inspectArb lib decoders pkg) k ↔
    ∃ image, writtenImage lib decoders pkg p = some image ∧ Reports (readFirmwareArb Words.wrapping image) k

theorem inspectArb_agrees_iff (lib : Review.Libraries) (decoders : Decoders) (pkg : Package) (p : PartitionUpdate)
    (hsized : Sized decoders) (hfound : xblConfig pkg = some p)
    (haccepted : extractionError p (block pkg.manifest) (dataSize pkg.file pkg.entry) = "") (hlimits : Limits pkg p) :
    Agrees lib decoders pkg p ↔ (∀ op ∈ p.operations, Scannable pkg op) ∨
      ∀ image k, Described lib decoders pkg p image → ¬ Reports (readFirmwareArb Words.wrapping image) k := by
  have hp := (check_ok_iff _ _ _).mp ((extractionError_eq_empty_iff _ _ _).mp haccepted)
  have hinspect : ∀ k, Reports (inspectArb lib decoders pkg) k ↔
      ∃ image, scanImage lib decoders pkg p = .ok image ∧ Reports (readFirmwareArb Words.wrapping image) k := by
    rw [inspectArb, hfound]
    dsimp only
    cases scanImage lib decoders pkg p with
    | error detail => simp [Reports]
    | ok image => simp
  simp only [Agrees, hinspect, scanImage_ok_iff hp hlimits, writtenImage_eq_some_iff hp hsized]
  by_cases hall : ∀ op ∈ p.operations, Scannable pkg op
  · exact iff_of_true (fun k => exists_congr fun image => and_congr_left' (and_iff_right hall)) (.inl hall)
  · constructor
    · intro hagrees
      refine .inr fun image k himage hk => hall ?_
      obtain ⟨_, ⟨hscan, -⟩, -⟩ := (hagrees k).mpr ⟨image, himage, hk⟩
      exact hscan
    · rintro (hscan | hnone) k
      · exact absurd hscan hall
      · exact iff_of_false (fun ⟨_, ⟨hscan, _⟩, _⟩ => hall hscan) fun ⟨image, himage, hk⟩ => hnone image k himage hk

end

section

def sampleData : Bytes :=
  [127, 69, 76, 70, 2, 1] ++ replicate 26 0 ++ bytes 8 64 ++ replicate 14 0 ++ bytes 2 56 ++ bytes 2 1 ++
    replicate 14 0 ++ bytes 8 120 ++ replicate 16 0 ++ bytes 8 64 ++ replicate 16 0 ++ bytes 4 1 ++
    replicate 8 0 ++ bytes 4 12 ++ bytes 4 16 ++ replicate 24 0 ++ bytes 4 3 ++ replicate 88 0

def sampleImage : Bytes := sampleData ++ replicate 256 0

def dataDigest : Bytes :=
  [138, 106, 200, 104, 119, 100, 75, 77, 47, 251, 243, 46, 78, 33, 90, 199, 113, 191, 198, 11, 20, 150, 191,
    124, 7, 22, 6, 249, 177, 184, 101, 73]

def imageDigest : Bytes :=
  [200, 149, 132, 169, 53, 146, 52, 113, 87, 173, 129, 166, 253, 66, 212, 30, 97, 53, 39, 117, 137, 76, 155,
    182, 194, 94, 13, 73, 217, 163, 129, 204]

def sampleLibraries : Review.Libraries where
  openArchive _ := none
  sha256 d := if d = sampleData then dataDigest else if d = sampleImage then imageDigest else replicate 32 0
  parse _ := none
  inspectImageZip _ := {}
  length_sha256 d := by split_ifs <;> rfl

def noDecoders : Decoders := ⟨fun _ _ => none, fun _ _ => none, fun _ _ => none⟩

def sampleUpdate (zeros : OperationType) : PartitionUpdate where
  partitionName := ascii "xbl_config"
  newPartitionInfo := some ⟨some 512, some imageDigest⟩
  operations := [⟨.replace, some 0, some 256, [], [⟨some 0, some 1⟩], some dataDigest, none⟩,
    ⟨zeros, none, none, [], [⟨some 1, some 1⟩], none, none⟩]

def samplePackage (zeros : OperationType) : Package where
  file := payloadFile ++ sampleData
  entry := ⟨true, 0, 281⟩
  manifest := ⟨some 256, [sampleUpdate zeros]⟩

theorem sized_noDecoders : Sized noDecoders := by
  constructor <;> intro input n out h <;> cases h

theorem inspectArb_agrees_sample : Agrees sampleLibraries noDecoders (samplePackage .zero) (sampleUpdate .zero) := by
  refine (inspectArb_agrees_iff sampleLibraries noDecoders (samplePackage .zero) (sampleUpdate .zero) sized_noDecoders
    (by decide) (by decide) (by constructor <;> decide)).mpr (.inl fun op hop => ?_)
  rcases mem_pair.mp hop with rfl | rfl <;> constructor <;> decide

theorem inspectArb_discard : xblConfig (samplePackage .discard) = some (sampleUpdate .discard) ∧
      extractionError (sampleUpdate .discard) (block (samplePackage .discard).manifest)
        (dataSize (samplePackage .discard).file (samplePackage .discard).entry) = "" ∧
      Limits (samplePackage .discard) (sampleUpdate .discard) ∧
      ¬ Agrees sampleLibraries noDecoders (samplePackage .discard) (sampleUpdate .discard) := by
  refine ⟨by decide, by decide, by constructor <;> decide, fun hagrees => ?_⟩
  have hwritten : writtenImage sampleLibraries noDecoders (samplePackage .discard) (sampleUpdate .discard) =
      some sampleImage := by decide +kernel
  have hindex : readFirmwareArb Words.wrapping sampleImage = some (reported 3) := by decide +kernel
  obtain ⟨arb, harb, havailable, -⟩ := (hagrees 3).mpr ⟨sampleImage, hwritten, reported 3, hindex, rfl, rfl⟩
  have hrefused : inspectArb sampleLibraries noDecoders (samplePackage .discard) =
      some ⟨false, 0, "xbl_config requires an unsupported or source-dependent operation"⟩ := by decide +kernel
  rw [hrefused] at harb
  cases harb
  cases havailable

end

end AeraRecovery.Payload.InspectArb
