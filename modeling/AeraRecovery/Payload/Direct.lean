import AeraRecovery.Payload.Extraction

namespace AeraRecovery.Payload.Direct

open Lib Checks Tiling Extraction Option Nat

def limit : UInt64 := 64 * 1024 * 1024

def checkedAdd (a b : UInt64) : Option UInt64 := if a.toNat + b.toNat < 2 ^ 64 then some (a + b) else none

def validateExtent (size block : UInt64) (state : UInt64 × List (Nat × Nat)) (extent : Extent) :
    Except String (UInt64 × List (Nat × Nat)) := do
  let start ← require extent.startBlock "Missing extent offset"
  let count ← require extent.numBlocks "Missing extent length"
  ensure (count > 0 ∧ start < size / block ∧ count ≤ size / block - start) "Extent outside image"
  let decoded ← require (checkedAdd state.1 (count * block)) "Extent overflow"
  let ranges := state.2 ++ [((start * block).toNat, ((start + count) * block).toNat)]
  ensure (ranges.length ≤ 1000000) "Too many extents"
  pure (decoded, ranges)

def validateData (dataSize decoded : UInt64) (op : InstallOperation) : Except String Unit :=
  if op.type.empty then ensure (op.length = 0) "Unexpected zero-operation data"
  else do
    let offset ← require op.dataOffset "Missing data offset"
    ensure (decoded ≤ limit ∧ op.length > 0 ∧ op.length ≤ limit) "Operation exceeds memory limit"
    ensure (offset ≤ dataSize ∧ op.length ≤ dataSize - offset) "Truncated operation"
    ensure (∃ h ∈ op.dataSha256Hash, h.length = 32) "Missing operation hash"

def validateOperation (size block dataSize : UInt64) (ranges : List (Nat × Nat)) (op : InstallOperation) :
    Except String (List (Nat × Nat)) := do
  ensure (op.type.full ∧ op.srcExtents = [] ∧ op.srcSha256Hash = none) "Unsupported operation"
  let state ← op.dstExtents.foldlM (validateExtent size block) (0, ranges)
  ensure (state.1 > 0) "Empty operation"
  validateData dataSize state.1 op
  pure state.2

variable (p : PartitionUpdate) (block : UInt64)

def validate (data : Bytes) : Except String UInt64 := do
  ensure (block > 0 ∧ block ≤ 1024 * 1024 ∧ block.toNat.isPowerOfTwo) "Invalid block size"
  ensure (p.oldPartitionInfo = none) "Incremental image is not supported"
  let info ← require p.newPartitionInfo "Missing image information"
  let size ← require info.size "Missing image size"
  ensure (size > 0 ∧ size ≤ 0x7fffffffffffffff ∧ size % block = 0) "Invalid image size"
  ensure (∃ h ∈ info.hash, h.length = 32) "Missing image SHA-256"
  let ranges ← p.operations.foldlM (validateOperation size block data.length.toUInt64) []
  let stop ← (ranges.insertionSort Before).foldlM (checkChain "Overlapping or incomplete extents") 0
  ensure (stop = size.toNat) "Incomplete image"
  pure size

def isAsciiAlphanumeric (c : UInt8) : Bool :=
  (48 ≤ c && c ≤ 57) || (65 ≤ c && c ≤ 90) || (97 ≤ c && c ≤ 122)

def nameAccepted (name : Bytes) : Bool :=
  name ≠ [] && name.length ≤ 128 && name.all fun c => isAsciiAlphanumeric c || c = 95 || c = 45

/-- The offsets that the recovery reads as zero when they are missing are there. -/
structure Explicit (op : InstallOperation) : Prop where
  extents : ∀ e ∈ op.dstExtents, e.startBlock ≠ none
  data : op.type.empty = false → op.dataOffset ≠ none

theorem validBlock_iff :
    (block > 0 ∧ block ≤ 1024 * 1024 ∧ block.toNat.isPowerOfTwo) ↔ ValidBlock block := by
  simp only [ValidBlock, not_or, not_not, gt_iff_lt, UInt64.not_lt, ← ne_zero_and_sub_one_eq_zero_iff_isPowerOfTwo]
  rw [UInt64.lt_iff_toNat_lt, UInt64.toNat_zero, pos_iff_ne_zero, ← UInt64.toNat_inj, UInt64.toNat_zero]
  refine and_congr_right fun hpos => and_congr_right fun _ => ?_
  have hone : (1 : UInt64) ≤ block := UInt64.le_iff_toNat_le.mpr (pos_of_ne_zero hpos)
  rw [and_iff_right hpos, ← UInt64.toNat_inj, UInt64.toNat_and, UInt64.toNat_sub_of_le _ _ hone]
  rfl

section

variable {size block : UInt64}

theorem checkedAdd_eq_some_iff {a b c : UInt64} :
    checkedAdd a b = some c ↔ a.toNat + b.toNat ≤ 2 ^ 64 - 1 ∧ c.toNat = a.toNat + b.toNat := by
  rw [checkedAdd, ite_none_right_eq_some, some_inj, ← UInt64.toNat_inj]
  constructor
  · rintro ⟨hlt, hc⟩
    rw [UInt64.toNat_add, mod_eq_of_lt hlt] at hc
    omega
  · rintro ⟨hle, hc⟩
    rw [UInt64.toNat_add, mod_eq_of_lt (by omega)]
    omega

theorem validateExtent_adds (size block : UInt64) : AddsExtent (validateExtent size block)
      (fun e => Extent.Inside (size.toNat / block.toNat) e ∧ e.startBlock ≠ none) (range block) block.toNat
      (2 ^ 64 - 1) := by
  intro state e out _
  cases hstart : e.startBlock with
  | none => simp [validateExtent, hstart, require, bind, Except.bind]
  | some start =>
    cases hnum : e.numBlocks with
    | none => simp [validateExtent, hstart, hnum, require, bind, Except.bind, Extent.Inside, Extent.num]
    | some count =>
      have hs : e.start = start := by rw [Extent.start, hstart, getD_some]
      have hn : e.num = count := by rw [Extent.num, hnum, getD_some]
      have hin : (count > 0 ∧ start < size / block ∧ count ≤ size / block - start) ↔
          Extent.Inside (size.toNat / block.toNat) e := by
        rw [← inside_iff, hs, hn, not_or, not_or, ge_iff_le, UInt64.not_le, gt_iff_lt, gt_iff_lt, UInt64.not_lt,
          UInt64.pos_iff_ne_zero]
      have hlimit : extentLimit = 1000000 := rfl
      simp only [validateExtent, hstart, hnum, bind_ok_iff, require_ok_iff, ensure_ok_iff, pure_ok_iff, hin,
        checkedAdd_eq_some_iff, exists_const, some_inj, exists_eq_left', List.length_append,
        List.length_singleton, ne_eq, reduceCtorEq, not_false_eq_true, and_true, hlimit]
      refine and_congr_right fun hinside => ?_
      have hmul : (count * block).toNat = e.num.toNat * block.toNat := by
        rw [← hn]
        exact hinside.toNat_num
      rw [hmul, range, hs, hn]
      constructor
      · rintro ⟨decoded, ⟨hle, hdecoded⟩, hroom, rfl⟩
        exact ⟨hle, hroom, hdecoded, rfl⟩
      · rintro ⟨hle, hroom, hdecoded, hranges⟩
        exact ⟨out.1, ⟨hle, hdecoded⟩, hroom, Prod.ext rfl hranges.symm⟩

theorem hash_iff (hash : Option Bytes) : (∃ h ∈ hash, h.length = 32) ↔ (hash.getD []).length = sha256Length := by
  cases hash with
  | none | some h => simp [sha256Length]

theorem validateData_ok_iff {dataSize decoded : UInt64} {op : InstallOperation}
    (hdecoded : decoded.toNat = span block.toNat op.dstExtents) : validateData dataSize decoded op = .ok () ↔
      (if op.type.empty then op.length = 0 else DataInside block.toNat dataSize.toNat op) ∧
        (op.type.empty = false → op.dataOffset ≠ none) := by
  have hlimit : limit = operationLimit := rfl
  rw [← checkData_ok_iff hdecoded, validateData, checkData]
  by_cases hempty : op.type.empty = true
  · rw [if_pos hempty, if_pos hempty, ensure_ok_iff, ensure_ok_iff, hempty]
    exact (and_iff_left (by simp)).symm
  · rw [if_neg hempty, if_neg hempty]
    simp only [bind_ok_iff, require_ok_iff, ensure_ok_iff, exists_const, hash_iff, hlimit, not_or, gt_iff_lt,
      UInt64.not_lt, UInt64.pos_iff_ne_zero, Bool.not_eq_true _ ▸ hempty, true_implies]
    constructor
    · rintro ⟨offset, hoffset, hbuffer, hinside, hhash⟩
      have hoff : op.offset = offset := by rw [InstallOperation.offset, hoffset, getD_some]
      rw [← hoff] at hinside
      exact ⟨⟨hbuffer, hinside, hhash⟩, hoffset ▸ some_ne_none _⟩
    · rintro ⟨⟨hbuffer, hinside, hhash⟩, hne⟩
      obtain ⟨offset, hoffset⟩ := ne_none_iff_exists'.mp hne
      have hoff : op.offset = offset := by rw [InstallOperation.offset, hoffset, getD_some]
      exact ⟨offset, hoffset, hbuffer, hoff ▸ hinside, hhash⟩

theorem validateOperation_adds (size dataSize : UInt64) (hblock : 0 < block.toNat) :
    AddsOperation (validateOperation size block dataSize) (fun op => Plain size.toNat block.toNat dataSize.toNat op ∧
      Explicit op ∧ span block.toNat op.dstExtents ≤ 2 ^ 64 - 1) (range block) := by
  intro ranges op out hlen
  simp only [validateOperation, bind_ok_iff (x := ensure (_ ∧ _) _), ensure_ok_iff, exists_const, gt_iff_lt,
    UInt64.pos_iff_ne_zero, (validateExtent_adds size block).operation (by decide) hlen validateData_ok_iff]
  constructor
  · rintro ⟨⟨hfull, hsrc, hhash⟩, ⟨hall, hpos, hfits, hdata, hoffset⟩, hrest⟩
    have hinside : ∀ e ∈ op.dstExtents, Extent.Inside (size.toNat / block.toNat) e := fun e he => (hall e he).1
    exact ⟨⟨⟨hfull, hsrc, hhash, hinside, (span_pos_iff hblock hinside).mp hpos, hdata⟩,
      ⟨fun e he => (hall e he).2, hoffset⟩, hfits⟩, hrest⟩
  · rintro ⟨⟨h, hexplicit, hfits⟩, hrest⟩
    exact ⟨⟨h.full, h.noSource, h.noSourceHash⟩, ⟨fun e he => ⟨h.extents e he, hexplicit.extents e he⟩,
      (span_pos_iff hblock h.extents).mpr h.nonempty, hfits, h.data, hexplicit.data⟩, hrest⟩

end

/-- `validate` accepts what `ExtractionError` accepts, names aside, if no offset is left out. -/
theorem validate_ok_iff (data : Bytes) (size : UInt64) :
    validate p block data = .ok size ↔
      Header p block ∧ (∀ op ∈ p.operations, Plain p.size.toNat block.toNat data.length.toUInt64.toNat op) ∧
      (p.operations.flatMap InstallOperation.dstExtents).length ≤ extentLimit ∧
      Tiles 0 p.size.toNat (p.bytes block.toNat) ∧ (∀ op ∈ p.operations, Explicit op) ∧ size = p.size := by
  have hheader := header_iff p block
  simp only [not_or, not_not, gt_iff_lt, UInt64.not_lt] at hheader
  simp only [validate, bind_ok_iff, require_ok_iff, ensure_ok_iff, pure_ok_iff, exists_const, validBlock_iff, hash_iff,
    checkChain_ok_iff]
  constructor
  · rintro ⟨hblock, hold, info, hinfo, size', hsize', ⟨hpos, hsigned, haligned⟩, hhash, ranges, hops, stop, hchain, rfl,
      rfl⟩
    have hinfo' : p.info = info := by rw [PartitionUpdate.info, hinfo, getD_some]
    have hsize : p.size = size' := by rw [PartitionUpdate.size, hinfo', hsize', getD_some]
    obtain rfl := hsize
    have header := hheader.mp
      ⟨hblock, hold, UInt64.pos_iff_ne_zero.mp hpos, hsigned, haligned, by rwa [PartitionUpdate.hash, hinfo']⟩
    have hblockPos := header.blockSize.pos
    obtain ⟨hall, hcount, hranges⟩ :=
      ((validateOperation_adds p.size data.length.toUInt64 hblockPos).foldlM_ok_iff (zero_le _)).mp hops
    have hplain := fun op hop => (hall op hop).1
    rw [List.nil_append, map_range_eq header.signed hplain] at hranges
    rw [List.length_nil, zero_add] at hcount
    rw [hranges] at hchain
    exact ⟨header, hplain, hcount, (chain_sort_iff (zero_le _) (bytes_nonempty hblockPos hplain)).mp hchain,
      fun op hop => (hall op hop).2.1, rfl⟩
  · rintro ⟨header, hplain, hcount, htiles, hexplicit, rfl⟩
    obtain ⟨hblock, hold, hpos, hsigned, haligned, hhash⟩ := hheader.mpr header
    have hblockPos := header.blockSize.pos
    obtain ⟨info, hinfo⟩ : ∃ info, p.newPartitionInfo = some info := by
      refine ne_none_iff_exists'.mp fun hnone => hpos ?_
      rw [PartitionUpdate.size, PartitionUpdate.info, hnone]
      rfl
    have hinfo' : p.info = info := by rw [PartitionUpdate.info, hinfo, getD_some]
    obtain ⟨size, hsize⟩ : ∃ size, info.size = some size := by
      refine ne_none_iff_exists'.mp fun hnone => hpos ?_
      rw [PartitionUpdate.size, hinfo', hnone]
      rfl
    have hsize' : p.size = size := by rw [PartitionUpdate.size, hinfo', hsize, getD_some]
    obtain rfl := hsize'
    refine ⟨hblock, hold, info, hinfo, p.size, hsize, ⟨UInt64.pos_iff_ne_zero.mpr hpos, hsigned, haligned⟩,
      by rwa [PartitionUpdate.hash, hinfo'] at hhash, p.bytes block.toNat, ?_, p.size.toNat, ?_, rfl, rfl⟩
    · refine ((validateOperation_adds p.size data.length.toUInt64 hblockPos).foldlM_ok_iff (zero_le _)).mpr
        ⟨fun op hop => ⟨hplain op hop, hexplicit op hop, ?_⟩, ?_, ?_⟩
      · have hspan := span_le_of_tiles htiles hop
        have := p.size.toNat_lt
        omega
      · rwa [List.length_nil, zero_add]
      · rw [List.nil_append, map_range_eq header.signed hplain]
    · exact (chain_sort_iff (zero_le _) htiles.nonempty).mpr htiles

end AeraRecovery.Payload.Direct
