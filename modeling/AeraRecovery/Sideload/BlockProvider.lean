import AeraRecovery.BlockMap.Parse

namespace AeraRecovery.Sideload

open Lib BlockMap List Option UInt64 Nat

/-- A block device. Its size is an `off64_t`. -/
structure Device where
  bytes : Bytes
  bound : bytes.length < 2 ^ 63

def readFullyAtOffset (fd : Device) (byteCount offset : UInt64) : Option Bytes :=
  if byteCount = 0 ∨ offset.toNat + byteCount.toNat ≤ fd.bytes.length then
    some (fd.bytes.slice offset.toNat byteCount.toNat)
  else none

structure BlockLayout where
  fileSize : UInt64
  fuseBlockSize : UInt32
  sourceBlockSize : UInt32
  ranges : RangeSet
  aligned : fuseBlockSize % sourceBlockSize = 0

structure FuseBlockDataProvider extends BlockLayout where
  fd : Device

def BlockLayout.ofBlockMap (m : BlockMapData) (fuseBlockSize : UInt32) (aligned : fuseBlockSize % m.blockSize = 0) :
    BlockLayout where
  fileSize := m.fileSize
  fuseBlockSize := fuseBlockSize
  sourceBlockSize := m.blockSize
  ranges := m.blockRanges
  aligned := aligned

namespace FuseBlockDataProvider

variable (p : FuseBlockDataProvider)

def tailingOffset (readRanges : RangeSet) (offset : UInt64) : Option UInt64 :=
  match readRanges.ranges.getLast? with
  | some r => some (r.2 * p.sourceBlockSize.toUInt64)
  | none => (p.ranges.getBlockNumber (offset / p.sourceBlockSize.toUInt64)).map (· * p.sourceBlockSize.toUInt64)

def readBlockAlignedData (fetchSize startBlock : UInt32) : Option Bytes :=
  let offset := startBlock.toUInt64 * p.fuseBlockSize.toUInt64
  let size := p.sourceBlockSize.toUInt64
  if fetchSize.toUInt64 > p.fileSize ∨ offset > p.fileSize - fetchSize.toUInt64 then none
  else do
    let readRanges ← p.ranges.getSubRanges (offset / size) (fetchSize / p.sourceBlockSize).toUInt64
    let out ← readRanges.ranges.mapM fun r => readFullyAtOffset p.fd ((r.2 - r.1) * size) (r.1 * size)
    let tailingBytes := (fetchSize % p.sourceBlockSize).toUInt64
    if tailingBytes = 0 then some out.flatten
    else
      let tailingOffset ← p.tailingOffset readRanges offset
      let tail ← readFullyAtOffset p.fd tailingBytes tailingOffset
      some (out.flatten ++ tail)

def fileByte (i : Nat) : Option UInt8 :=
  (p.ranges.numbers[i / p.sourceBlockSize.toNat]?).bind fun n =>
    p.fd.bytes[n * p.sourceBlockSize.toNat + i % p.sourceBlockSize.toNat]?

end FuseBlockDataProvider

namespace BlockLayout

section

variable (p : BlockLayout) (fetchSize startBlock : UInt32)

def first : Nat := startBlock.toNat * p.fuseBlockSize.toNat / p.sourceBlockSize.toNat

def whole : Nat := fetchSize.toNat / p.sourceBlockSize.toNat

def rest : Nat := fetchSize.toNat % p.sourceBlockSize.toNat

def restBlock : Option Nat :=
  if p.whole fetchSize = 0 then p.ranges.numbers[p.first startBlock]?
  else p.ranges.numbers[p.first startBlock + p.whole fetchSize - 1]?.map (· + 1)

def wholeRanges : List (Nat × Nat) :=
  ((p.ranges.getSubRanges (UInt64.ofNat (p.first startBlock)) (UInt64.ofNat (p.whole fetchSize))).map
    fun sub => sub.ranges.map fun r =>
      (r.1.toNat * p.sourceBlockSize.toNat, (r.2.toNat - r.1.toNat) * p.sourceBlockSize.toNat)).getD []

def asked : List (Nat × Nat) :=
  p.wholeRanges fetchSize startBlock ++
    if p.rest fetchSize = 0 then []
    else (p.restBlock fetchSize startBlock).toList.map fun n => (n * p.sourceBlockSize.toNat, p.rest fetchSize)

end

def load (fd : Device) (q : Nat × Nat) : Option Bytes :=
  if q.1 % 2 ^ 64 + q.2 ≤ fd.bytes.length then some (fd.bytes.slice (q.1 % 2 ^ 64) q.2) else none

variable {p : BlockLayout} {fetchSize startBlock : UInt32}

structure Valid (p : BlockLayout) : Prop where
  size : 0 < p.sourceBlockSize.toNat
  blocks : p.ranges.blocks.toNat = (p.fileSize.toNat - 1) / p.sourceBlockSize.toNat + 1

def InRange (p : BlockLayout) (fetchSize startBlock : UInt32) : Prop :=
  startBlock.toNat * p.fuseBlockSize.toNat + fetchSize.toNat ≤ p.fileSize.toNat

variable {fd : Device}

theorem readFullyAtOffset_eq {byteCount offset : UInt64} {o n : Nat} (ho : offset.toNat = o % 2 ^ 64)
    (hn : byteCount.toNat = n) (hpos : 0 < n) : readFullyAtOffset fd byteCount offset = load fd (o, n) := by
  have hne : byteCount ≠ 0 := by
    rintro rfl
    exact hpos.ne hn
  simp only [readFullyAtOffset, load, hne, false_or, ho, hn]

theorem toNat_offset (p : BlockLayout) (startBlock : UInt32) :
    (startBlock.toUInt64 * p.fuseBlockSize.toUInt64).toNat = startBlock.toNat * p.fuseBlockSize.toNat := by
  have h₁ := startBlock.toNat_lt
  have h₂ := p.fuseBlockSize.toNat_lt
  have hlt : startBlock.toNat * p.fuseBlockSize.toNat < 2 ^ 64 := by
    calc startBlock.toNat * p.fuseBlockSize.toNat
        ≤ (2 ^ 32 - 1) * (2 ^ 32 - 1) := Nat.mul_le_mul (by omega) (by omega)
      _ < 2 ^ 64 := by decide
  rw [UInt64.toNat_mul, UInt32.toNat_toUInt64, UInt32.toNat_toUInt64, mod_eq_of_lt hlt]

theorem offset_eq (p : BlockLayout) (startBlock : UInt32) :
    startBlock.toNat * p.fuseBlockSize.toNat = p.first startBlock * p.sourceBlockSize.toNat := by
  have haligned := congrArg UInt32.toNat p.aligned
  exact (Nat.div_mul_cancel ((Nat.dvd_of_mod_eq_zero haligned).mul_left _)).symm

theorem fetchSize_eq (p : BlockLayout) (fetchSize : UInt32) :
    fetchSize.toNat = p.whole fetchSize * p.sourceBlockSize.toNat + p.rest fetchSize :=
  (div_add_mod' _ _).symm

theorem first_eq (p : BlockLayout) (startBlock : UInt32) :
    startBlock.toUInt64 * p.fuseBlockSize.toUInt64 / p.sourceBlockSize.toUInt64 = UInt64.ofNat (p.first startBlock) ∧
      (UInt64.ofNat (p.first startBlock)).toNat = p.first startBlock := by
  have hnat : (startBlock.toUInt64 * p.fuseBlockSize.toUInt64 / p.sourceBlockSize.toUInt64).toNat =
      p.first startBlock := by
    rw [UInt64.toNat_div, toNat_offset, UInt32.toNat_toUInt64, first]
  rw [← hnat, UInt64.ofNat_toNat]
  exact ⟨rfl, rfl⟩

theorem whole_eq (p : BlockLayout) (fetchSize : UInt32) :
    (fetchSize / p.sourceBlockSize).toUInt64 = UInt64.ofNat (p.whole fetchSize) ∧
      (UInt64.ofNat (p.whole fetchSize)).toNat = p.whole fetchSize := by
  have hnat : (fetchSize / p.sourceBlockSize).toUInt64.toNat = p.whole fetchSize := by
    rw [UInt32.toNat_toUInt64, UInt32.toNat_div, whole]
  rw [← hnat, UInt64.ofNat_toNat]
  exact ⟨rfl, rfl⟩

theorem blocks_of_inRange (hp : p.Valid) (h : p.InRange fetchSize startBlock) :
    p.first startBlock + p.whole fetchSize ≤ p.ranges.blocks.toNat ∧
      (p.rest fetchSize ≠ 0 → p.first startBlock + p.whole fetchSize < p.ranges.blocks.toNat) := by
  have hsize := hp.size
  rw [InRange, offset_eq, fetchSize_eq p fetchSize, ← add_assoc, ← add_mul] at h
  rw [hp.blocks]
  generalize p.first startBlock + p.whole fetchSize = k at h
  constructor
  · cases k with
    | zero => exact zero_le _
    | succ k =>
      rw [succ_mul] at h
      exact succ_le_succ ((le_div_iff_mul_le hsize).mpr (by omega))
  · intro hrest
    exact lt_succ_of_le ((le_div_iff_mul_le hsize).mpr (by omega))

theorem sub_of_inRange (hp : p.Valid) (h : p.InRange fetchSize startBlock) :
    ∃ sub, p.ranges.getSubRanges (UInt64.ofNat (p.first startBlock)) (UInt64.ofNat (p.whole fetchSize)) = some sub ∧
      sub.numbers = (p.ranges.numbers.drop (p.first startBlock)).take (p.whole fetchSize) := by
  have hfirst := (first_eq p startBlock).2
  have hwhole := (whole_eq p fetchSize).2
  have hsum : (UInt64.ofNat (p.first startBlock)).toNat + (UInt64.ofNat (p.whole fetchSize)).toNat ≤
      p.ranges.blocks.toNat := by
    rw [hfirst, hwhole]
    exact (blocks_of_inRange hp h).1
  obtain ⟨sub, hsub, hcode⟩ := RangeSet.getSubRanges_spec hsum
  rw [hfirst, hwhole] at hcode
  exact ⟨sub, hsub, hcode⟩

theorem restBlock_eq {sub : RangeSet} (hwhole : p.whole fetchSize ≤ p.ranges.blocks.toNat - p.first startBlock)
    (hcode : sub.numbers = (p.ranges.numbers.drop (p.first startBlock)).take (p.whole fetchSize)) :
    p.restBlock fetchSize startBlock = match sub.ranges.getLast? with
      | some r => some r.2.toNat
      | none => p.ranges.numbers[p.first startBlock]? := by
  have hlen : sub.numbers.length = p.whole fetchSize := by
    rw [hcode, length_take, length_drop, RangeSet.length_numbers, min_eq_left hwhole]
  cases hlast : sub.ranges.getLast? with
  | none =>
    have hnil : sub.numbers = [] := by
      rw [RangeSet.numbers, getLast?_eq_none_iff.mp hlast]
      rfl
    rw [hnil, length_nil] at hlen
    rw [restBlock, if_pos hlen.symm]
  | some r =>
    have hr := sub.nonempty r (mem_of_getLast? hlast)
    have hnat := lt_iff_toNat_lt.mp hr
    have hend : sub.numbers.getLast? = some (r.2.toNat - 1) :=
      Ranges.getLast?_numbers (r := r.toNat) (by rw [getLast?_map, hlast]; rfl) hnat
    have hpos : 0 < p.whole fetchSize := by
      rw [← hlen]
      exact length_pos_of_ne_nil fun hnil => by rw [hnil] at hend; cases hend
    rw [getLast?_eq_getElem?, hlen, hcode, getElem?_take_of_lt (by omega), getElem?_drop,
      ← Nat.add_sub_assoc hpos] at hend
    rw [restBlock, if_neg hpos.ne', hend, map_some]
    congr 1
    omega

theorem mapM_load (fd : Device) {size : UInt64} {ranges : List Range} (hsize : 0 < size.toNat)
    (hne : ∀ r ∈ ranges, r.1 < r.2) (hfits : Ranges.count (ranges.map Range.toNat) * size.toNat < 2 ^ 64) :
    (ranges.mapM fun r => readFullyAtOffset fd ((r.2 - r.1) * size) (r.1 * size)) =
      (ranges.map fun r => (r.1.toNat * size.toNat, (r.2.toNat - r.1.toNat) * size.toNat)).mapM (load fd) := by
  induction ranges with
  | nil => rfl
  | cons r ranges ih =>
    rw [forall_mem_cons] at hne
    have hcount : Ranges.count ((r :: ranges).map Range.toNat) =
        (r.2.toNat - r.1.toNat) + Ranges.count (ranges.map Range.toNat) := rfl
    rw [hcount, add_mul] at hfits
    have hlen : ((r.2 - r.1) * size).toNat = (r.2.toNat - r.1.toNat) * size.toNat := by
      rw [UInt64.toNat_mul, RangeSet.toNat_sub hne.1, mod_eq_of_lt (by omega)]
    have hlt := lt_iff_toNat_lt.mp hne.1
    have hpos : 0 < (r.2.toNat - r.1.toNat) * size.toNat := mul_pos (by omega) hsize
    rw [mapM_cons, map_cons, mapM_cons, ih hne.2 (by omega), readFullyAtOffset_eq (UInt64.toNat_mul _ _) hlen hpos]

theorem exists_restBlock (h : p.first startBlock + p.whole fetchSize < p.ranges.blocks.toNat) :
    ∃ n, p.restBlock fetchSize startBlock = some n := by
  rw [← RangeSet.length_numbers] at h
  rw [restBlock]
  split_ifs with hzero
  · exact ⟨_, getElem?_eq_getElem (by omega)⟩
  · rw [getElem?_eq_getElem (by omega)]
    exact ⟨_, rfl⟩

theorem readBlockAlignedData_eq (fd : Device) (hp : p.Valid) (h : p.InRange fetchSize startBlock) :
    (FuseBlockDataProvider.mk p fd).readBlockAlignedData fetchSize startBlock =
      ((p.asked fetchSize startBlock).mapM (load fd)).map flatten := by
  obtain ⟨sub, hsub, hcode⟩ := sub_of_inRange hp h
  have hoffset := toNat_offset p startBlock
  have hinside : ¬ (fetchSize.toUInt64 > p.fileSize ∨
      startBlock.toUInt64 * p.fuseBlockSize.toUInt64 > p.fileSize - fetchSize.toUInt64) := by
    rw [InRange] at h
    have hle : fetchSize.toUInt64 ≤ p.fileSize := by
      rw [UInt64.le_iff_toNat_le, UInt32.toNat_toUInt64]
      omega
    rw [not_or, gt_iff_lt, UInt64.not_lt, gt_iff_lt, UInt64.not_lt, UInt64.le_iff_toNat_le (b := _ - _),
      UInt64.toNat_sub_of_le _ _ hle, hoffset, UInt32.toNat_toUInt64]
    exact ⟨hle, by omega⟩
  have hfirst := first_eq p startBlock
  have hrest : (fetchSize % p.sourceBlockSize).toUInt64.toNat = p.rest fetchSize := by
    rw [UInt32.toNat_toUInt64, UInt32.toNat_mod, rest]
  have hsize := UInt32.toNat_toUInt64 p.sourceBlockSize
  have hfits : Ranges.count (sub.ranges.map Range.toNat) * p.sourceBlockSize.toUInt64.toNat < 2 ^ 64 := by
    have hlen : sub.numbers.length ≤ p.whole fetchSize := by
      rw [hcode]
      exact length_take_le _ _
    rw [← sub.counted, ← RangeSet.length_numbers, hsize]
    have hmul := mul_le_mul_right p.sourceBlockSize.toNat hlen
    have hfetch := fetchSize_eq p fetchSize
    have hlt := fetchSize.toNat_lt
    omega
  have hranges : p.wholeRanges fetchSize startBlock = sub.ranges.map fun r =>
      (r.1.toNat * p.sourceBlockSize.toNat, (r.2.toNat - r.1.toNat) * p.sourceBlockSize.toNat) := by
    rw [wholeRanges, hsub]
    rfl
  have hblocks := blocks_of_inRange hp h
  have hblock := restBlock_eq (by omega) hcode
  have hreads := mapM_load fd (by rw [hsize]; exact hp.size) sub.nonempty hfits
  rw [hsize, ← hranges] at hreads
  rw [FuseBlockDataProvider.readBlockAlignedData, if_neg hinside, hfirst.1, (whole_eq p fetchSize).1, hsub]
  simp only [bind_eq_bind, bind_some, hreads]
  rw [asked]
  by_cases hzero : p.rest fetchSize = 0
  · have hzero' : (fetchSize % p.sourceBlockSize).toUInt64 = 0 := UInt64.toNat_inj.mp (hrest.trans hzero)
    simp only [hzero', if_true, hzero, append_nil]
    cases (p.wholeRanges fetchSize startBlock).mapM (load fd) with
    | none | some out => rfl
  · have hzero' : (fetchSize % p.sourceBlockSize).toUInt64 ≠ 0 := fun h => hzero (hrest.symm.trans (congrArg _ h))
    have hload : ∀ {o : UInt64} {n : Nat}, o.toNat = n * p.sourceBlockSize.toNat % 2 ^ 64 →
        readFullyAtOffset fd (fetchSize % p.sourceBlockSize).toUInt64 o =
          load fd (n * p.sourceBlockSize.toNat, p.rest fetchSize) :=
      fun ho => readFullyAtOffset_eq ho hrest (pos_of_ne_zero hzero)
    have htail : (FuseBlockDataProvider.tailingOffset ⟨p, fd⟩ sub (startBlock.toUInt64 * p.fuseBlockSize.toUInt64)).bind
        (readFullyAtOffset fd (fetchSize % p.sourceBlockSize).toUInt64) =
        (p.restBlock fetchSize startBlock).bind fun n => load fd (n * p.sourceBlockSize.toNat, p.rest fetchSize) := by
      rw [hblock, FuseBlockDataProvider.tailingOffset, hfirst.1]
      cases sub.ranges.getLast? with
      | some r => exact hload (by rw [UInt64.toNat_mul, hsize])
      | none =>
        have hnumber := RangeSet.getBlockNumber_spec p.ranges (UInt64.ofNat (p.first startBlock))
        rw [hfirst.2] at hnumber
        cases hget : p.ranges.getBlockNumber (UInt64.ofNat (p.first startBlock)) with
        | none =>
          rw [hget, map_none] at hnumber
          rw [← hnumber]
          rfl
        | some n =>
          rw [hget, map_some] at hnumber
          rw [← hnumber]
          exact hload (by rw [UInt64.toNat_mul, hsize])
    obtain ⟨n, hn⟩ := exists_restBlock (hblocks.2 hzero)
    rw [if_neg hzero, mapM_append, hn]
    rw [hn, bind_some] at htail
    cases (p.wholeRanges fetchSize startBlock).mapM (load fd) with
    | none => rfl
    | some out =>
      rw [bind_some, if_neg hzero', ← bind_assoc, htail]
      cases hlast : load fd (n * p.sourceBlockSize.toNat, p.rest fetchSize) with
      | none | some tail => simp [hlast]

def bytesAt (fd : Device) (q : Nat × Nat) : List (Option UInt8) := (range' q.1 q.2).map (fd.bytes[·]?)

def wanted (p : BlockLayout) (fetchSize startBlock : UInt32) : List (Nat × Nat) :=
  p.wholeRanges fetchSize startBlock ++
    if p.rest fetchSize = 0 then []
    else p.ranges.numbers[p.first startBlock + p.whole fetchSize]?.toList.map fun n =>
      (n * p.sourceBlockSize.toNat, p.rest fetchSize)

theorem block_bytes {k n m : Nat} (hsize : 0 < p.sourceBlockSize.toNat)
    (hk : p.ranges.numbers[k]? = some n) (hm : m ≤ p.sourceBlockSize.toNat) :
    (range' (k * p.sourceBlockSize.toNat) m).map (FuseBlockDataProvider.mk p fd).fileByte =
      bytesAt fd (n * p.sourceBlockSize.toNat, m) := by
  apply ext_getElem?
  intro i
  rw [bytesAt, getElem?_map, getElem?_map]
  by_cases hi : i < m
  · rw [getElem?_range' hi, getElem?_range' hi, map_some, map_some, Nat.one_mul, FuseBlockDataProvider.fileByte]
    have hdiv : (k * p.sourceBlockSize.toNat + i) / p.sourceBlockSize.toNat = k := by
      rw [mul_comm, mul_add_div hsize, div_eq_of_lt (by omega), add_zero]
    have hmod : (k * p.sourceBlockSize.toNat + i) % p.sourceBlockSize.toNat = i := by
      rw [mul_comm, mul_add_mod, mod_eq_of_lt (by omega)]
    rw [hdiv, hmod, hk, bind_some]
  · rw [getElem?_eq_none (by rw [length_range']; omega), getElem?_eq_none (by rw [length_range']; omega)]
    rfl

theorem bytes_wholeRanges (fd : Device) (hp : p.Valid) (h : p.InRange fetchSize startBlock) :
    (range' (p.first startBlock * p.sourceBlockSize.toNat) (p.whole fetchSize * p.sourceBlockSize.toNat)).map
      (FuseBlockDataProvider.mk p fd).fileByte = (p.wholeRanges fetchSize startBlock).flatMap (bytesAt fd) := by
  obtain ⟨sub, hsub, hcode⟩ := sub_of_inRange hp h
  have hblocks := (blocks_of_inRange hp h).1
  rw [← RangeSet.length_numbers] at hblocks
  have hnumbers : sub.numbers = (range' (p.first startBlock) (p.whole fetchSize)).map (p.ranges.numbers.getD · 0) := by
    rw [hcode]
    apply ext_getElem
    · rw [length_take, length_drop, length_map, length_range']
      omega
    · intro i h₁ h₂
      rw [length_map, length_range'] at h₂
      rw [getElem_take, getElem_drop, getElem_map, getElem_range', Nat.one_mul, getD_eq_getElem _ _ (by omega)]
  calc (range' (p.first startBlock * p.sourceBlockSize.toNat)
        (p.whole fetchSize * p.sourceBlockSize.toNat)).map (FuseBlockDataProvider.mk p fd).fileByte
      = (range' (p.first startBlock) (p.whole fetchSize)).flatMap fun k =>
          bytesAt fd (p.ranges.numbers.getD k 0 * p.sourceBlockSize.toNat, p.sourceBlockSize.toNat) := by
        rw [Ranges.range'_mul, map_flatMap]
        refine flatMap_congr fun k hk => block_bytes hp.size ?_ le_rfl
        rw [mem_range'_1] at hk
        rw [getElem?_eq_getElem (by omega), getD_eq_getElem _ _ (by omega)]
    _ = sub.numbers.flatMap fun n => bytesAt fd (n * p.sourceBlockSize.toNat, p.sourceBlockSize.toNat) := by
        rw [hnumbers, flatMap_map]
    _ = (p.wholeRanges fetchSize startBlock).flatMap (bytesAt fd) := by
        rw [wholeRanges, hsub, RangeSet.numbers, Ranges.numbers, flatMap_assoc, flatMap_map]
        rw [map_some, getD_some, flatMap_map]
        refine flatMap_congr fun r hr => ?_
        rw [bytesAt, Ranges.range'_mul, map_flatMap]
        rfl

theorem fileBytes_eq (fd : Device) (hp : p.Valid) (h : p.InRange fetchSize startBlock) :
    (range' (startBlock.toNat * p.fuseBlockSize.toNat) fetchSize.toNat).map
      (FuseBlockDataProvider.mk p fd).fileByte = (p.wanted fetchSize startBlock).flatMap (bytesAt fd) := by
  have hblocks := blocks_of_inRange hp h
  rw [offset_eq, fetchSize_eq p fetchSize, ← range'_append_1, map_append, bytes_wholeRanges fd hp h, wanted,
    flatMap_append, ← add_mul]
  congr 1
  split_ifs with hzero
  · rw [hzero]
    rfl
  · have hlt := hblocks.2 hzero
    rw [← RangeSet.length_numbers] at hlt
    have hget := getElem?_eq_getElem hlt
    have hrest : p.rest fetchSize ≤ p.sourceBlockSize.toNat := (mod_lt _ hp.size).le
    rw [hget, block_bytes hp.size hget hrest, toList_some, map_singleton, flatMap_singleton]

def wrapped (q : Nat × Nat) : Nat × Nat := (q.1 % 2 ^ 64, q.2)

/-- No device has all the places that a call asks for, or these are the places of the blocks: no offset of a range
exceeds 64 bits, and the last, partial block lies where the last range ends. -/
def Follows (p : BlockLayout) (fetchSize startBlock : UInt32) : Prop :=
  (∃ q ∈ p.asked fetchSize startBlock, 2 ^ 63 ≤ q.1 % 2 ^ 64 + q.2) ∨
    (∀ q ∈ p.wholeRanges fetchSize startBlock, q.1 < 2 ^ 64) ∧
      (p.rest fetchSize ≠ 0 → (p.restBlock fetchSize startBlock).map (· * p.sourceBlockSize.toNat % 2 ^ 64) =
        p.ranges.numbers[p.first startBlock + p.whole fetchSize]?.map (· * p.sourceBlockSize.toNat))

theorem mapM_load_eq_some_iff {l : List (Nat × Nat)} {outs : List Bytes} :
    l.mapM (load fd) = some outs ↔ (∀ q ∈ l, q.1 % 2 ^ 64 + q.2 ≤ fd.bytes.length) ∧
      outs = l.map fun q => fd.bytes.slice (q.1 % 2 ^ 64) q.2 := by
  induction l generalizing outs with
  | nil =>
    constructor
    · rintro ⟨⟩
      exact ⟨nofun, rfl⟩
    · rintro ⟨-, rfl⟩
      rfl
  | cons q l ih =>
    rw [mapM_cons, forall_mem_cons, map_cons, load]
    by_cases hq : q.1 % 2 ^ 64 + q.2 ≤ fd.bytes.length
    · rw [if_pos hq]
      constructor
      · intro h
        obtain ⟨head, hhead, h⟩ := bind_eq_some_iff.mp h
        obtain ⟨rest, hrest, h⟩ := bind_eq_some_iff.mp h
        cases hhead
        cases h
        obtain ⟨hall, rfl⟩ := ih.mp hrest
        exact ⟨⟨hq, hall⟩, rfl⟩
      · rintro ⟨⟨-, hall⟩, rfl⟩
        exact bind_eq_some_iff.mpr ⟨_, rfl, bind_eq_some_iff.mpr ⟨_, ih.mpr ⟨hall, rfl⟩, rfl⟩⟩
    · rw [if_neg hq]
      constructor
      · intro h
        cases h
      · exact fun h => absurd h.1.1 hq

theorem map_some_slice {o n : Nat} (h : o + n ≤ fd.bytes.length) :
    (fd.bytes.slice o n).map some = bytesAt fd (o, n) := by
  apply ext_getElem?
  intro i
  rw [bytesAt, getElem?_map, getElem?_map, Bytes.slice, getElem?_take]
  split_ifs with hi
  · have hget := getElem?_eq_getElem (show o + i < fd.bytes.length by omega)
    rw [getElem?_drop, getElem?_range' hi, Nat.one_mul, map_some, hget]
    rfl
  · rw [getElem?_eq_none (by rw [length_range']; omega)]
    rfl

theorem readBlockAlignedData_eq_some_iff {out : Bytes} (hp : p.Valid) (h : p.InRange fetchSize startBlock) :
    (FuseBlockDataProvider.mk p fd).readBlockAlignedData fetchSize startBlock = some out ↔
      (∀ q ∈ p.asked fetchSize startBlock, q.1 % 2 ^ 64 + q.2 ≤ fd.bytes.length) ∧
        out.map some = (p.asked fetchSize startBlock).flatMap fun q => bytesAt fd (wrapped q) := by
  have hbytes : (∀ q ∈ p.asked fetchSize startBlock, q.1 % 2 ^ 64 + q.2 ≤ fd.bytes.length) →
      ((p.asked fetchSize startBlock).map fun q => fd.bytes.slice (q.1 % 2 ^ 64) q.2).flatten.map some =
        (p.asked fetchSize startBlock).flatMap fun q => bytesAt fd (wrapped q) := by
    intro hall
    rw [← flatMap_def, map_flatMap]
    exact flatMap_congr fun q hq => map_some_slice (hall q hq)
  rw [readBlockAlignedData_eq fd hp h, map_eq_some_iff]
  constructor
  · rintro ⟨outs, houts, rfl⟩
    obtain ⟨hall, rfl⟩ := mapM_load_eq_some_iff.mp houts
    exact ⟨hall, hbytes hall⟩
  · rintro ⟨hall, hout⟩
    refine ⟨_, mapM_load_eq_some_iff.mpr ⟨hall, rfl⟩, ?_⟩
    exact map_injective_iff.mpr (some_injective _) ((hbytes hall).trans hout.symm)

theorem asked_eq_of_follows (hranges : ∀ q ∈ p.wholeRanges fetchSize startBlock, q.1 < 2 ^ 64)
    (hrest : p.rest fetchSize ≠ 0 → (p.restBlock fetchSize startBlock).map (· * p.sourceBlockSize.toNat % 2 ^ 64) =
      p.ranges.numbers[p.first startBlock + p.whole fetchSize]?.map (· * p.sourceBlockSize.toNat)) :
    (p.asked fetchSize startBlock).map wrapped = p.wanted fetchSize startBlock := by
  rw [asked, wanted, map_append]
  congr 1
  · refine (map_congr_left fun q hq => ?_).trans (map_id _)
    rw [wrapped, mod_eq_of_lt (hranges q hq)]
    rfl
  · split_ifs with hzero
    · rfl
    · have h := congrArg (Option.map fun o => (o, p.rest fetchSize)) (hrest hzero)
      rw [Option.map_map, Option.map_map] at h
      rw [← toList_map, ← toList_map, ← toList_map, Option.map_map]
      exact congrArg toList h

def largest (f : Nat → UInt8) : Device where
  bytes := (range (2 ^ 63 - 1)).map f
  bound := by
    rw [length_map, length_range]
    omega

theorem getElem?_largest {f : Nat → UInt8} {x : Nat} {c : UInt8} :
    (largest f).bytes[x]? = some c ↔ x < 2 ^ 63 - 1 ∧ f x = c := by
  rw [largest, getElem?_map, map_eq_some_iff]
  constructor
  · rintro ⟨y, hy, rfl⟩
    obtain ⟨hlt, rfl⟩ := List.getElem?_eq_some_iff.mp hy
    rw [length_range] at hlt
    rw [getElem_range]
    exact ⟨hlt, rfl⟩
  · rintro ⟨hlt, rfl⟩
    exact ⟨x, getElem?_range hlt, rfl⟩

theorem exact_of_follows (hp : p.Valid) (h : p.InRange fetchSize startBlock) (hf : p.Follows fetchSize startBlock)
    (fd : Device) (out : Bytes)
    (hread : (FuseBlockDataProvider.mk p fd).readBlockAlignedData fetchSize startBlock = some out) :
    out.map some = (range' (startBlock.toNat * p.fuseBlockSize.toNat) fetchSize.toNat).map
      (FuseBlockDataProvider.mk p fd).fileByte := by
  obtain ⟨hall, hout⟩ := (readBlockAlignedData_eq_some_iff hp h).mp hread
  rcases hf with ⟨q, hq, hfar⟩ | ⟨hranges, hrest⟩
  · have := hall q hq
    have := fd.bound
    omega
  · rw [fileBytes_eq fd hp h, hout, ← asked_eq_of_follows hranges hrest, flatMap_map]

theorem wholeRanges_pos (hp : p.Valid) (h : p.InRange fetchSize startBlock) :
    ∀ q ∈ p.wholeRanges fetchSize startBlock, 0 < q.2 := by
  obtain ⟨sub, hsub, -⟩ := sub_of_inRange hp h
  intro q hq
  rw [wholeRanges, hsub, map_some, getD_some] at hq
  obtain ⟨r, hr, rfl⟩ := mem_map.mp hq
  have hlt := lt_iff_toNat_lt.mp (sub.nonempty r hr)
  exact mul_pos (by omega) hp.size

theorem head?_bytesAt (fd : Device) {q : Nat × Nat} (hq : 0 < q.2) : (bytesAt fd q).head? = some fd.bytes[q.1]? := by
  rw [bytesAt, head?_map, head?_range', if_neg hq.ne']
  rfl

theorem follows_of_exact (hp : p.Valid) (h : p.InRange fetchSize startBlock)
    (hexact : ∀ fd out, (FuseBlockDataProvider.mk p fd).readBlockAlignedData fetchSize startBlock = some out →
      out.map some = (range' (startBlock.toNat * p.fuseBlockSize.toNat) fetchSize.toNat).map
        (FuseBlockDataProvider.mk p fd).fileByte) : p.Follows fetchSize startBlock := by
  by_cases hfar : ∃ q ∈ p.asked fetchSize startBlock, 2 ^ 63 ≤ q.1 % 2 ^ 64 + q.2
  · exact .inl hfar
  · have hnear : ∀ q ∈ p.asked fetchSize startBlock, q.1 % 2 ^ 64 + q.2 < 2 ^ 63 :=
      fun q hq => Nat.lt_of_not_le fun hle => hfar ⟨q, hq, hle⟩
    -- the largest devices have all that is asked for
    have hsome : ∀ f, ∃ out : Bytes, out.map some = (p.asked fetchSize startBlock).flatMap (fun q =>
        bytesAt (largest f) (wrapped q)) ∧
        out.map some = (p.wanted fetchSize startBlock).flatMap (bytesAt (largest f)) := by
      intro f
      have hlen : (largest f).bytes.length = 2 ^ 63 - 1 := by rw [largest, length_map, length_range]
      have hfits : ∀ q ∈ p.asked fetchSize startBlock, q.1 % 2 ^ 64 + q.2 ≤ (largest f).bytes.length :=
        fun q hq => by rw [hlen]; exact le_sub_one_of_lt (hnear q hq)
      have hread := readBlockAlignedData_eq (largest f) hp h
      rw [mapM_load_eq_some_iff.mpr ⟨hfits, rfl⟩, map_some] at hread
      refine ⟨_, ((readBlockAlignedData_eq_some_iff hp h).mp hread).2, ?_⟩
      rw [← fileBytes_eq (largest f) hp h]
      exact hexact _ _ hread
    have hplace : ∀ q ∈ p.wholeRanges fetchSize startBlock, q.1 < 2 ^ 64 := by
      intro q hq
      obtain ⟨out, -, hout⟩ := hsome fun _ => 0
      have hmem : (largest fun _ => 0).bytes[q.1]? ∈ out.map some := by
        rw [hout, wanted, flatMap_append]
        exact mem_append_left _ (mem_flatMap.mpr
          ⟨q, hq, mem_of_head? (head?_bytesAt _ (wholeRanges_pos hp h q hq))⟩)
      obtain ⟨c, -, hc⟩ := mem_map.mp hmem
      have := (getElem?_largest.mp hc.symm).1
      omega
    refine .inr ⟨hplace, fun hrest => ?_⟩
    have hlt := (blocks_of_inRange hp h).2 hrest
    obtain ⟨u, hu⟩ := exists_restBlock hlt
    rw [← RangeSet.length_numbers] at hlt
    have ht := getElem?_eq_getElem hlt
    rw [hu, ht, map_some, map_some]
    generalize p.ranges.numbers[p.first startBlock + p.whole fetchSize] = t at ht
    -- a device that differs from the others where the partial block is read
    obtain ⟨out, hasked, hwanted⟩ := hsome fun x => if x = u * p.sourceBlockSize.toNat % 2 ^ 64 then 1 else 0
    generalize hf : (fun x => if x = u * p.sourceBlockSize.toNat % 2 ^ 64 then (1 : UInt8) else 0) = f at hasked hwanted
    have hsame : (p.wholeRanges fetchSize startBlock).flatMap (fun q => bytesAt (largest f) (wrapped q)) =
        (p.wholeRanges fetchSize startBlock).flatMap (bytesAt (largest f)) :=
      flatMap_congr fun q hq => by rw [wrapped, mod_eq_of_lt (hplace q hq)]
    have hmem : (u * p.sourceBlockSize.toNat, p.rest fetchSize) ∈ p.asked fetchSize startBlock := by
      rw [asked, if_neg hrest, hu]
      exact mem_append_right _ (mem_singleton_self _)
    have heq := hasked.symm.trans hwanted
    rw [asked, wanted, if_neg hrest, if_neg hrest, hu, ht, toList_some, toList_some, map_singleton,
      map_singleton, flatMap_append, flatMap_append, flatMap_singleton, flatMap_singleton,
      hsame, append_cancel_left_eq] at heq
    have hpos := pos_of_ne_zero hrest
    have hhead := congrArg head? heq
    rw [head?_bytesAt _ hpos, head?_bytesAt _ hpos, some_inj] at hhead
    have hone : (largest f).bytes[u * p.sourceBlockSize.toNat % 2 ^ 64]? = some 1 := by
      have := hnear _ hmem
      refine getElem?_largest.mpr ⟨by omega, ?_⟩
      rw [← hf]
      exact if_pos rfl
    have htail := (getElem?_largest.mp (hhead.symm.trans hone)).2
    rw [← hf] at htail
    dsimp only at htail
    split_ifs at htail with hsamePlace
    · rw [hsamePlace]
    · exact absurd htail (by decide)

end BlockLayout

theorem BlockLayout.valid_ofBlockMap {content : Bytes} {m : BlockMapData} (h : parseBlockMapFile content = some m)
    {fuseBlockSize : UInt32} (aligned : fuseBlockSize % m.blockSize = 0) :
    (BlockLayout.ofBlockMap m fuseBlockSize aligned).Valid :=
  ⟨(valid_of_parse h).blockSize, (valid_of_parse h).blocks⟩

/-- A call returns the bytes of the file on every device if and only if `Follows` holds of the blocks it is about. -/
theorem readBlockAlignedData_exact_iff (content : Bytes) (m : BlockMapData) (h : parseBlockMapFile content = some m)
    (fuseBlockSize fetchSize startBlock : UInt32) (aligned : fuseBlockSize % m.blockSize = 0)
    (hrange : startBlock.toNat * fuseBlockSize.toNat + fetchSize.toNat ≤ m.fileSize.toNat) :
    (∀ (fd : Device) (out : Bytes),
      (FuseBlockDataProvider.mk (.ofBlockMap m fuseBlockSize aligned) fd).readBlockAlignedData fetchSize startBlock =
        some out → out.map some = (range' (startBlock.toNat * fuseBlockSize.toNat) fetchSize.toNat).map
        (FuseBlockDataProvider.mk (.ofBlockMap m fuseBlockSize aligned) fd).fileByte) ↔
      (BlockLayout.ofBlockMap m fuseBlockSize aligned).Follows fetchSize startBlock := by
  have hvalid := BlockLayout.valid_ofBlockMap h aligned
  constructor
  · exact BlockLayout.follows_of_exact hvalid hrange
  · exact BlockLayout.exact_of_follows hvalid hrange

/-- A file of six bytes in blocks of four, of which the second starts a new range. -/
def fragmentedMap : Bytes := Bytes.ascii "d\n6 4\n2\n1 2\n5 6\n"

def sampleDevice : Device where
  bytes := (range 24).map UInt8.ofNat
  bound := by decide

theorem readBlockAlignedData_exact_iff_fragmentedMap :
    ∃ m, parseBlockMapFile fragmentedMap = some m ∧ ∃ aligned : (4 : UInt32) % m.blockSize = 0,
      1 * 4 + 2 = m.fileSize.toNat ∧ ((∀ (fd : Device) (out : Bytes),
        (FuseBlockDataProvider.mk (.ofBlockMap m 4 aligned) fd).readBlockAlignedData 2 1 = some out →
        out.map some = (range' 4 2).map (FuseBlockDataProvider.mk (.ofBlockMap m 4 aligned) fd).fileByte) ↔
        (BlockLayout.ofBlockMap m 4 aligned).Follows 2 1) ∧ (BlockLayout.ofBlockMap m 4 aligned).Follows 2 1 :=
  ⟨_, rfl, rfl, rfl, readBlockAlignedData_exact_iff fragmentedMap _ rfl 4 2 1 rfl (by decide), .inr (by decide)⟩

theorem readBlockAlignedData_misses_new_range :
    ∃ m, parseBlockMapFile fragmentedMap = some m ∧ ∃ (aligned : (8 : UInt32) % m.blockSize = 0) (out : Bytes),
      (FuseBlockDataProvider.mk (.ofBlockMap m 8 aligned) sampleDevice).readBlockAlignedData 6 0 = some out ∧
      out = [4, 5, 6, 7, 8, 9] ∧
      (range' 0 6).map (FuseBlockDataProvider.mk (.ofBlockMap m 8 aligned) sampleDevice).fileByte =
        [4, 5, 6, 7, 20, 21].map some := by
  refine ⟨_, rfl, rfl, _, rfl, rfl, rfl⟩

end AeraRecovery.Sideload
