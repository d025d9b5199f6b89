import AeraRecovery.Lib.Checks
import AeraRecovery.Payload.Manifest

namespace AeraRecovery.Payload.Extraction

open Lib Checks Tiling Nat

inductive Reason
  | name | blockSize | source | size | incremental | extent | overflow | extents | emptyOperation | zeroData | buffer
  | outside | operationHash | overlap | incomplete
  deriving DecidableEq

def Reason.message : Reason → String
  | name => "Invalid partition name"
  | blockSize => "Unsupported block size"
  | source => "Requires an existing source image"
  | size => "Missing or unsupported image size / SHA-256"
  | incremental => "Requires an incremental update operation"
  | extent => "Invalid destination extent"
  | overflow => "Operation size overflow"
  | extents => "Too many image extents"
  | emptyOperation => "Empty destination operation"
  | zeroData => "Unexpected data in a zero operation"
  | buffer => "Operation exceeds the bounded extraction buffer"
  | outside => "Operation data is outside the payload"
  | operationHash => "Missing operation SHA-256"
  | overlap => "Image has overlapping or incomplete extents"
  | incomplete => "Image requires additional generated data"

theorem Reason.message_ne_empty (r : Reason) : r.message ≠ "" := by
  cases r <;> decide

def operationLimit : UInt64 := 64 * 1024 * 1024

def extentLimit : Nat := 1000000

def sha256Length : Nat := 32

def nameCharacters : Bytes := Bytes.ascii "abcdefghijklmnopqrstuvwxyzABCDEFGHIJKLMNOPQRSTUVWXYZ0123456789_-"

def ValidName (name : Bytes) : Prop := ¬ (name = [] ∨ name.length > 128 ∨ ∃ c ∈ name, c ∉ nameCharacters)

instance (name : Bytes) : Decidable (ValidName name) := inferInstanceAs (Decidable (¬ _))

def ValidBlock (block : UInt64) : Prop := ¬ (block = 0 ∨ block > 1024 * 1024 ∨ block &&& (block - 1) ≠ 0)

instance (block : UInt64) : Decidable (ValidBlock block) := inferInstanceAs (Decidable (¬ _))

/-- The pair pushed for an extent, with the products and the sum taken modulo `2 ^ 64`. -/
def range (block : UInt64) (e : Extent) : Nat × Nat :=
  ((e.start * block).toNat, ((e.start + e.num) * block).toNat)

/-- One turn of the loop over the extents of an operation. The state is `bytes` with `ranges`. -/
def checkExtent (size block : UInt64) (state : UInt64 × List (Nat × Nat)) (e : Extent) :
    Except Reason (UInt64 × List (Nat × Nat)) := do
  ensure (¬ (e.num = 0 ∨ e.start ≥ size / block ∨ e.num > size / block - e.start)) .extent
  ensure (¬ (e.num * block > size - state.1)) .overflow
  ensure (¬ (state.2 ++ [range block e]).length > extentLimit) .extents
  pure (state.1 + e.num * block, state.2 ++ [range block e])

def checkData (dataSize bytes : UInt64) (op : InstallOperation) : Except Reason Unit :=
  if op.type.empty then ensure (op.length = 0) .zeroData
  else do
    ensure (¬ (bytes > operationLimit ∨ op.length = 0 ∨ op.length > operationLimit)) .buffer
    ensure (¬ (op.offset > dataSize ∨ op.length > dataSize - op.offset)) .outside
    ensure (op.hash.length = sha256Length) .operationHash

def checkOperation (size block dataSize : UInt64) (ranges : List (Nat × Nat)) (op : InstallOperation) :
    Except Reason (List (Nat × Nat)) := do
  ensure (op.type.full ∧ op.srcExtents = [] ∧ op.srcSha256Hash = none) .incremental
  let state ← op.dstExtents.foldlM (checkExtent size block) (0, ranges)
  ensure (state.1 ≠ 0) .emptyOperation
  checkData dataSize state.1 op
  pure state.2

/-- One turn of the loop over the sorted ranges: each starts where the one before it stops. -/
def checkChain {ε : Type} (e : ε) (stop : Nat) (r : Nat × Nat) : Except ε Nat := do
  ensure (r.1 = stop) e
  pure r.2

variable (p : PartitionUpdate) (block dataSize : UInt64)

def check : Except Reason Unit := do
  ensure (ValidName p.partitionName) .name
  ensure (ValidBlock block) .blockSize
  ensure (p.oldPartitionInfo = none) .source
  ensure (¬ (p.size = 0 ∨ p.size > 0x7fffffffffffffff ∨ p.size % block ≠ 0 ∨ p.hash.length ≠ sha256Length)) .size
  let ranges ← p.operations.foldlM (checkOperation p.size block dataSize) []
  let stop ← (ranges.insertionSort Before).foldlM (checkChain .overlap) 0
  ensure (stop = p.size.toNat) .incomplete

def extractionError : String :=
  match check p block dataSize with
  | .ok () => ""
  | .error reason => reason.message

theorem extractionError_eq_empty_iff :
    extractionError p block dataSize = "" ↔ check p block dataSize = .ok () := by
  rw [extractionError]
  cases check p block dataSize with
  | ok => exact iff_of_true rfl rfl
  | error r => exact iff_of_false r.message_ne_empty nofun

def Extent.Inside (blocks : Nat) (e : Extent) : Prop := 0 < e.num.toNat ∧ e.start.toNat + e.num.toNat ≤ blocks

structure DataInside (block dataSize : Nat) (op : InstallOperation) : Prop where
  bounded : span block op.dstExtents ≤ operationLimit.toNat
  pos : 0 < op.length.toNat
  limit : op.length.toNat ≤ operationLimit.toNat
  inside : op.offset.toNat + op.length.toNat ≤ dataSize
  hash : op.hash.length = sha256Length

structure Plain (size block dataSize : Nat) (op : InstallOperation) : Prop where
  full : op.type.full
  noSource : op.srcExtents = []
  noSourceHash : op.srcSha256Hash = none
  extents : ∀ e ∈ op.dstExtents, Extent.Inside (size / block) e
  nonempty : op.dstExtents ≠ []
  data : if op.type.empty then op.length = 0 else DataInside block dataSize op

/-- What the header of the update must say before its operations are looked at. -/
structure Header (p : PartitionUpdate) (block : UInt64) : Prop where
  blockSize : ValidBlock block
  fresh : p.oldPartitionInfo = none
  pos : 0 < p.size.toNat
  signed : p.size.toNat < 2 ^ 63
  aligned : block.toNat ∣ p.size.toNat
  hash : p.hash.length = sha256Length

structure Extractable (p : PartitionUpdate) (block : UInt64) (dataSize : Nat) : Prop extends Header p block where
  name : ValidName p.partitionName
  operations : ∀ op ∈ p.operations, Plain p.size.toNat block.toNat dataSize op
  count : (p.operations.flatMap InstallOperation.dstExtents).length ≤ extentLimit
  tiles : Tiles 0 p.size.toNat (p.bytes block.toNat)

section

variable {ε : Type} {range : Extent → Nat × Nat}

def AddsExtent (step : UInt64 × List (Nat × Nat) → Extent → Except ε (UInt64 × List (Nat × Nat)))
    (good : Extent → Prop) (range : Extent → Nat × Nat) (block limit : Nat) : Prop :=
  ∀ state e out, state.1.toNat ≤ limit → (step state e = .ok out ↔
    good e ∧ state.1.toNat + e.num.toNat * block ≤ limit ∧ state.2.length + 1 ≤ extentLimit ∧
      out.1.toNat = state.1.toNat + e.num.toNat * block ∧ out.2 = state.2 ++ [range e])

variable {step : UInt64 × List (Nat × Nat) → Extent → Except ε (UInt64 × List (Nat × Nat))}

theorem AddsExtent.foldlM_ok_iff
    {good : Extent → Prop} {block limit : Nat} (h : AddsExtent step good range block limit) (hlimit : limit < 2 ^ 64)
    {state out : UInt64 × List (Nat × Nat)} {es : List Extent} (hstate : state.1.toNat ≤ limit)
    (hlen : state.2.length ≤ extentLimit) : es.foldlM step state = .ok out ↔
      (∀ e ∈ es, good e) ∧ state.1.toNat + span block es ≤ limit ∧ state.2.length + es.length ≤ extentLimit ∧
      out.1.toNat = state.1.toNat + span block es ∧ out.2 = state.2 ++ es.map range := by
  induction es generalizing state with
  | nil =>
    simp only [List.foldlM_nil, pure_ok_iff, List.not_mem_nil, false_implies, implies_true, true_and, span_nil,
      add_zero, List.length_nil, List.map_nil, List.append_nil, hstate, hlen]
    rw [eq_comm, Prod.ext_iff, ← UInt64.toNat_inj]
  | cons e es ih =>
    simp only [List.foldlM_cons, bind_ok_iff, List.forall_mem_cons, span_cons, List.length_cons, List.map_cons]
    constructor
    · rintro ⟨next, hnext, hrest⟩
      obtain ⟨hgood, hfits, hroom, hbytes, hranges⟩ := (h state e next hstate).mp hnext
      have hlen' : next.2.length ≤ extentLimit := by
        rw [hranges, List.length_append, List.length_singleton]
        exact hroom
      obtain ⟨hall, hsum, hcount, hout, hlist⟩ := (ih (by omega) hlen').mp hrest
      rw [hranges, List.length_append, List.length_singleton] at hcount
      refine ⟨⟨hgood, hall⟩, by omega, by omega, by omega, ?_⟩
      rw [hlist, hranges, List.append_assoc, List.singleton_append]
    · rintro ⟨⟨hgood, hall⟩, hsum, hcount, hout, hlist⟩
      have hfits : state.1.toNat + e.num.toNat * block ≤ limit := by omega
      let next : UInt64 × List (Nat × Nat) :=
        (UInt64.ofNat (state.1.toNat + e.num.toNat * block), state.2 ++ [range e])
      have hbytes : next.1.toNat = state.1.toNat + e.num.toNat * block :=
        UInt64.toNat_ofNat_of_lt (hfits.trans_lt hlimit)
      have hnextLen : next.2.length = state.2.length + 1 := by
        rw [List.length_append, List.length_singleton]
      refine ⟨next, (h state e next hstate).mpr ⟨hgood, hfits, by omega, hbytes, rfl⟩, ?_⟩
      refine (ih (by omega) (by omega)).mpr ⟨hall, by omega, by omega, by omega, ?_⟩
      rw [hlist, List.append_assoc, List.singleton_append]

variable {ranges : List (Nat × Nat)}

/-- The extents of one operation, the bytes they span and the check of its data. -/
theorem AddsExtent.operation
    {good : Extent → Prop} {block limit : Nat} (h : AddsExtent step good range block limit) (hlimit : limit < 2 ^ 64)
    {out : List (Nat × Nat)} {es : List Extent} (hlen : ranges.length ≤ extentLimit) {empty : ε}
    {data : UInt64 → Except ε Unit} {D : Prop}
    (hdata : ∀ {bytes : UInt64}, bytes.toNat = span block es → (data bytes = .ok () ↔ D)) : (do
      let state ← es.foldlM step (0, ranges)
      ensure (state.1 ≠ 0) empty
      data state.1
      pure state.2) = .ok out ↔ ((∀ e ∈ es, good e) ∧ 0 < span block es ∧ span block es ≤ limit ∧ D) ∧
        ranges.length + es.length ≤ extentLimit ∧ out = ranges ++ es.map range := by
  have hstart : ((0, ranges) : UInt64 × List (Nat × Nat)).1.toNat ≤ limit := zero_le _
  have hzero (bytes : UInt64) : bytes ≠ 0 ↔ 0 < bytes.toNat := by
    rw [← UInt64.pos_iff_ne_zero, UInt64.lt_iff_toNat_lt, UInt64.toNat_zero]
  simp only [bind_ok_iff, ensure_ok_iff, pure_ok_iff, exists_const, h.foldlM_ok_iff hlimit hstart hlen,
    UInt64.toNat_zero, zero_add, hzero]
  constructor
  · rintro ⟨state, ⟨hall, hfits, hcount, hbytes, hranges⟩, hpos, _, hok, rfl⟩
    exact ⟨⟨hall, hbytes ▸ hpos, hfits, (hdata hbytes).mp hok⟩, hcount, hranges⟩
  · rintro ⟨⟨hall, hpos, hfits, hD⟩, hcount, rfl⟩
    have hbytes : (UInt64.ofNat (span block es)).toNat = span block es :=
      UInt64.toNat_ofNat_of_lt (hfits.trans_lt hlimit)
    exact ⟨(UInt64.ofNat (span block es), ranges ++ es.map range), ⟨hall, hfits, hcount, hbytes, rfl⟩,
      hbytes.symm ▸ hpos, (), (hdata hbytes).mpr hD, rfl⟩

def AddsOperation (step : List (Nat × Nat) → InstallOperation → Except ε (List (Nat × Nat)))
    (good : InstallOperation → Prop) (range : Extent → Nat × Nat) : Prop :=
  ∀ ranges op out, ranges.length ≤ extentLimit → (step ranges op = .ok out ↔
    good op ∧ ranges.length + op.dstExtents.length ≤ extentLimit ∧ out = ranges ++ op.dstExtents.map range)

theorem AddsOperation.foldlM_ok_iff {step : List (Nat × Nat) → InstallOperation → Except ε (List (Nat × Nat))}
    {good : InstallOperation → Prop} (h : AddsOperation step good range) {out : List (Nat × Nat)}
    {ops : List InstallOperation} (hlen : ranges.length ≤ extentLimit) :
    ops.foldlM step ranges = .ok out ↔ (∀ op ∈ ops, good op) ∧
      ranges.length + (ops.flatMap InstallOperation.dstExtents).length ≤ extentLimit ∧
      out = ranges ++ (ops.flatMap InstallOperation.dstExtents).map range := by
  induction ops generalizing ranges with
  | nil =>
    simp only [List.foldlM_nil, pure_ok_iff, List.not_mem_nil, false_implies, implies_true, true_and,
      List.flatMap_nil, List.length_nil, add_zero, hlen, List.map_nil, List.append_nil]
    exact eq_comm
  | cons op ops ih =>
    simp only [List.foldlM_cons, bind_ok_iff, List.forall_mem_cons, List.flatMap_cons, List.length_append,
      List.map_append]
    constructor
    · rintro ⟨next, hnext, hrest⟩
      obtain ⟨hgood, hcount, rfl⟩ := (h ranges op next hlen).mp hnext
      have hlen' : (ranges ++ op.dstExtents.map range).length ≤ extentLimit := by
        rw [List.length_append, List.length_map]
        exact hcount
      obtain ⟨hall, hroom, rfl⟩ := (ih hlen').mp hrest
      rw [List.length_append, List.length_map] at hroom
      exact ⟨⟨hgood, hall⟩, by omega, List.append_assoc _ _ _⟩
    · rintro ⟨⟨hgood, hall⟩, hroom, rfl⟩
      refine ⟨_, (h ranges op _ hlen).mpr ⟨hgood, by omega, rfl⟩,
        (ih ?_).mpr ⟨hall, ?_, (List.append_assoc _ _ _).symm⟩⟩ <;>
        simp only [List.length_append, List.length_map] <;> omega

end

section

variable {size block : UInt64}

theorem ValidBlock.pos (h : ValidBlock block) : 0 < block.toNat := by
  simp only [ValidBlock, not_or] at h
  have hne : block.toNat ≠ 0 := fun h0 => h.1 (UInt64.toNat_inj.mp h0)
  omega

theorem toNat_mul_block {n : UInt64} (h : n.toNat ≤ size.toNat / block.toNat) :
    (n * block).toNat = n.toNat * block.toNat ∧ n.toNat * block.toNat ≤ size.toNat := by
  have hle := (mul_le_mul_right block.toNat h).trans (div_mul_le_self size.toNat block.toNat)
  have := size.toNat_lt
  rw [UInt64.toNat_mul, mod_eq_of_lt (by omega)]
  exact ⟨rfl, hle⟩

section

variable {e : Extent} (h : Extent.Inside (size.toNat / block.toNat) e)

include h

theorem Extent.Inside.fits : e.start.toNat * block.toNat + e.num.toNat * block.toNat ≤ size.toNat := by
  rw [← add_mul]
  exact (mul_le_mul_right _ h.2).trans (div_mul_le_self _ _)

theorem Extent.Inside.toNat_start : (e.start * block).toNat = e.start.toNat * block.toNat :=
  (toNat_mul_block ((le_add_right _ _).trans h.2)).1

theorem Extent.Inside.toNat_num : (e.num * block).toNat = e.num.toNat * block.toNat :=
  (toNat_mul_block ((le_add_left _ _).trans h.2)).1

end

section

variable {e : Extent} (hsize : size.toNat < 2 ^ 63) (h : Extent.Inside (size.toNat / block.toNat) e)

include hsize h

theorem toNat_stop : (e.start + e.num).toNat = e.start.toNat + e.num.toNat := by
  have hdiv := div_le_self size.toNat block.toNat
  have := h.2
  rw [UInt64.toNat_add, mod_eq_of_lt (by omega)]

theorem range_eq : range block e = e.bytes block.toNat := by
  have hstop := toNat_stop hsize h
  simp only [range, Extent.bytes, h.toNat_start]
  have hend : (e.start + e.num).toNat ≤ size.toNat / block.toNat := by
    rw [hstop]
    exact h.2
  rw [(toNat_mul_block hend).1, hstop]

end

theorem inside_iff (e : Extent) : ¬ (e.num = 0 ∨ e.start ≥ size / block ∨ e.num > size / block - e.start) ↔
      Extent.Inside (size.toNat / block.toNat) e := by
  simp only [not_or, ge_iff_le, gt_iff_lt, UInt64.not_le, UInt64.not_lt, Extent.Inside]
  rw [← UInt64.toNat_inj, UInt64.toNat_zero, UInt64.lt_iff_toNat_lt, UInt64.toNat_div]
  constructor
  · rintro ⟨h₁, h₂, h₃⟩
    have hle : e.start ≤ size / block := by
      rw [UInt64.le_iff_toNat_le, UInt64.toNat_div]
      omega
    rw [UInt64.le_iff_toNat_le, UInt64.toNat_sub_of_le _ _ hle, UInt64.toNat_div] at h₃
    omega
  · rintro ⟨h₁, h₂⟩
    have hle : e.start ≤ size / block := by
      rw [UInt64.le_iff_toNat_le, UInt64.toNat_div]
      omega
    rw [UInt64.le_iff_toNat_le, UInt64.toNat_sub_of_le _ _ hle, UInt64.toNat_div]
    omega

theorem checkExtent_adds (size block : UInt64) :
    AddsExtent (checkExtent size block) (Extent.Inside (size.toNat / block.toNat)) (range block) block.toNat
      size.toNat := by
  intro state e out hle
  have hstate : state.1 ≤ size := UInt64.le_iff_toNat_le.mpr hle
  simp only [checkExtent, bind_ok_iff, ensure_ok_iff, pure_ok_iff, inside_iff, exists_const, gt_iff_lt, not_lt,
    UInt64.not_lt, List.length_append, List.length_singleton]
  refine and_congr_right fun hin => ?_
  have hsub : e.num * block ≤ size - state.1 ↔ state.1.toNat + e.num.toNat * block.toNat ≤ size.toNat := by
    rw [UInt64.le_iff_toNat_le, hin.toNat_num, UInt64.toNat_sub_of_le _ _ hstate]
    omega
  rw [hsub]
  refine and_congr_right fun hfits => and_congr_right fun _ => ?_
  have := size.toNat_lt
  have hsum : (state.1 + e.num * block).toNat = state.1.toNat + e.num.toNat * block.toNat := by
    rw [UInt64.toNat_add, hin.toNat_num, mod_eq_of_lt (by omega)]
  rw [Prod.ext_iff, ← UInt64.toNat_inj, hsum]
  simp only [eq_comm]

theorem span_pos_iff (hblock : 0 < block.toNat) {es : List Extent}
    (h : ∀ e ∈ es, Extent.Inside (size.toNat / block.toNat) e) : 0 < span block.toNat es ↔ es ≠ [] := by
  cases es with
  | nil => simp only [span_nil, lt_irrefl, ne_eq, not_true_eq_false]
  | cons e es =>
    have hpos := mul_pos (h e List.mem_cons_self).1 hblock
    simp only [span_cons, ne_eq, reduceCtorEq, not_false_eq_true, iff_true]
    omega

theorem checkData_ok_iff {dataSize bytes : UInt64} {op : InstallOperation}
    (hbytes : bytes.toNat = span block.toNat op.dstExtents) : checkData dataSize bytes op = .ok () ↔
      if op.type.empty then op.length = 0 else DataInside block.toNat dataSize.toNat op := by
  rw [checkData]
  split_ifs with hempty
  · exact ensure_ok_iff
  · simp only [bind_ok_iff, ensure_ok_iff, exists_const, not_or, gt_iff_lt, UInt64.not_lt, UInt64.le_iff_toNat_le,
      ← UInt64.toNat_inj, UInt64.toNat_zero, hbytes]
    constructor
    · rintro ⟨⟨h₁, h₂, h₃⟩, ⟨h₄, h₅⟩, h₆⟩
      rw [UInt64.toNat_sub_of_le _ _ (UInt64.le_iff_toNat_le.mpr h₄)] at h₅
      exact ⟨h₁, by omega, h₃, by omega, h₆⟩
    · intro h
      have hin := h.inside
      have hle : op.offset ≤ dataSize := UInt64.le_iff_toNat_le.mpr (by omega)
      rw [UInt64.toNat_sub_of_le _ _ hle]
      have hpos := h.pos
      exact ⟨⟨h.bounded, by omega, h.limit⟩, ⟨by omega, by omega⟩, h.hash⟩

theorem checkOperation_adds (size dataSize : UInt64) (hblock : 0 < block.toNat) :
    AddsOperation (checkOperation size block dataSize) (fun op => Plain size.toNat block.toNat dataSize.toNat op ∧
      span block.toNat op.dstExtents ≤ size.toNat) (range block) := by
  intro ranges op out hlen
  simp only [checkOperation, bind_ok_iff (x := ensure _ _), ensure_ok_iff, exists_const,
    (checkExtent_adds size block).operation size.toNat_lt hlen checkData_ok_iff]
  constructor
  · rintro ⟨⟨hfull, hsrc, hhash⟩, ⟨hall, hpos, hfits, hdata⟩, hrest⟩
    exact ⟨⟨⟨hfull, hsrc, hhash, hall, (span_pos_iff hblock hall).mp hpos, hdata⟩, hfits⟩, hrest⟩
  · rintro ⟨⟨h, hfits⟩, hrest⟩
    exact ⟨⟨h.full, h.noSource, h.noSourceHash⟩,
      ⟨h.extents, (span_pos_iff hblock h.extents).mpr h.nonempty, hfits, h.data⟩, hrest⟩

end

theorem checkChain_ok_iff {ε : Type} {e : ε} {stop out : Nat} {ranges : List (Nat × Nat)} :
    ranges.foldlM (checkChain e) stop = .ok out ↔ Chain stop ranges out := by
  induction ranges generalizing stop with
  | nil => simp only [List.foldlM_nil, pure_ok_iff, Chain]
  | cons r ranges ih =>
    simp only [List.foldlM_cons, bind_ok_iff, checkChain, ensure_ok_iff, pure_ok_iff, exists_const, Chain,
      and_assoc, exists_and_left, exists_eq_left', ih]

theorem header_iff (p : PartitionUpdate) (block : UInt64) : (ValidBlock block ∧ p.oldPartitionInfo = none ∧
      ¬ (p.size = 0 ∨ p.size > 0x7fffffffffffffff ∨ p.size % block ≠ 0 ∨ p.hash.length ≠ sha256Length)) ↔
      Header p block := by
  have hmax : (0x7fffffffffffffff : UInt64).toNat = 2 ^ 63 - 1 := rfl
  simp only [not_or, gt_iff_lt, UInt64.not_lt, not_not, ← UInt64.toNat_inj, UInt64.toNat_zero,
    UInt64.le_iff_toNat_le, hmax, UInt64.toNat_mod, ← dvd_iff_mod_eq_zero]
  constructor
  · rintro ⟨h₁, h₂, h₃, h₄, h₅, h₆⟩
    exact ⟨h₁, h₂, by omega, by omega, h₅, h₆⟩
  · intro h
    have hpos := h.pos
    have hsigned := h.signed
    exact ⟨h.blockSize, h.fresh, by omega, by omega, h.aligned, h.hash⟩

variable {p : PartitionUpdate}

theorem map_range_eq {block : UInt64} {dataSize : Nat} (hsigned : p.size.toNat < 2 ^ 63)
    (hplain : ∀ op ∈ p.operations, Plain p.size.toNat block.toNat dataSize op) :
    (p.operations.flatMap InstallOperation.dstExtents).map (range block) = p.bytes block.toNat := by
  simp only [PartitionUpdate.bytes, List.map_flatMap]
  refine List.flatMap_congr fun op hop => ?_
  refine List.map_congr_left fun e he => ?_
  exact range_eq hsigned ((hplain op hop).extents e he)

theorem bytes_nonempty {block dataSize : Nat} (hblock : 0 < block)
    (hplain : ∀ op ∈ p.operations, Plain p.size.toNat block dataSize op) : ∀ r ∈ p.bytes block, r.1 < r.2 := by
  intro r hr
  obtain ⟨op, hop, hr⟩ := List.mem_flatMap.mp hr
  obtain ⟨e, he, rfl⟩ := List.mem_map.mp hr
  have hpos := mul_pos ((hplain op hop).extents e he).1 hblock
  simp only [Extent.bytes, add_mul]
  omega

theorem span_le_of_tiles {block size : Nat} (h : Tiles 0 size (p.bytes block))
    {op : InstallOperation} (hop : op ∈ p.operations) : span block op.dstExtents ≤ size := by
  have htotal := h.length (zero_le size)
  rw [zero_add] at htotal
  rw [← htotal, ← sum_bytes_eq_span]
  have hsub : (op.bytes block).Sublist (p.bytes block) := by
    obtain ⟨before, after, heq⟩ := List.append_of_mem hop
    simp only [PartitionUpdate.bytes, heq, List.flatMap_append, List.flatMap_cons]
    exact (List.sublist_append_left _ _).trans (List.sublist_append_right _ _)
  exact (hsub.map _).sum_le_sum fun _ _ => zero_le _

/-- `ExtractionError` accepts exactly the updates whose operations are plain and tile the image. -/
theorem check_ok_iff (p : PartitionUpdate) (block dataSize : UInt64) :
    check p block dataSize = .ok () ↔ Extractable p block dataSize.toNat := by
  simp only [check, bind_ok_iff, ensure_ok_iff, exists_const, checkChain_ok_iff, exists_eq_right]
  constructor
  · rintro ⟨hname, hblock, hold, hsize, ranges, hops, hchain⟩
    have header := (header_iff p block).mp ⟨hblock, hold, hsize⟩
    have hpos := header.blockSize.pos
    obtain ⟨hall, hcount, hranges⟩ := ((checkOperation_adds p.size dataSize hpos).foldlM_ok_iff (zero_le _)).mp hops
    have hplain : ∀ op ∈ p.operations, Plain p.size.toNat block.toNat dataSize.toNat op := fun op hop => (hall op hop).1
    rw [List.nil_append, map_range_eq header.signed hplain] at hranges
    rw [List.length_nil, zero_add] at hcount
    rw [hranges] at hchain
    exact ⟨header, hname, hplain, hcount, (chain_sort_iff (zero_le _) (bytes_nonempty hpos hplain)).mp hchain⟩
  · intro h
    have hpos := h.blockSize.pos
    obtain ⟨hblock, hold, hsize⟩ := (header_iff p block).mpr h.toHeader
    refine ⟨h.name, hblock, hold, hsize, p.bytes block.toNat, ?_, ?_⟩
    · refine ((checkOperation_adds p.size dataSize hpos).foldlM_ok_iff (zero_le _)).mpr
        ⟨fun op hop => ⟨h.operations op hop, ?_⟩, ?_, ?_⟩
      · exact span_le_of_tiles h.tiles hop
      · rw [List.length_nil, zero_add]
        exact h.count
      · rw [List.nil_append, map_range_eq h.signed h.operations]
    · exact (chain_sort_iff (zero_le _) h.tiles.nonempty).mpr h.tiles

end AeraRecovery.Payload.Extraction
