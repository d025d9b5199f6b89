import AeraRecovery.Lib.Ranges

namespace AeraRecovery.BlockMap

open Lib List Nat

abbrev Range := UInt64 × UInt64

def Range.toNat (r : Range) : Nat × Nat := (r.1.toNat, r.2.toNat)

/-- Nonempty ranges of blocks and their number, which does not reach `SIZE_MAX`. -/
structure RangeSet where
  ranges : List Range
  blocks : UInt64
  nonempty : ∀ r ∈ ranges, r.1 < r.2
  counted : blocks.toNat = Ranges.count (ranges.map Range.toNat)
  bounded : blocks.toNat < 2 ^ 64 - 1

namespace RangeSet

def numbers (s : RangeSet) : List Nat := Ranges.numbers (s.ranges.map Range.toNat)

def empty : RangeSet where
  ranges := []
  blocks := 0
  nonempty := nofun
  counted := rfl
  bounded := by decide

variable {s s' : RangeSet} {r : Range}

theorem toNat_sub (h : r.1 < r.2) : (r.2 - r.1).toNat = r.2.toNat - r.1.toNat :=
  UInt64.toNat_sub_of_le _ _ (UInt64.le_of_lt h)

theorem lt_room_iff (h : r.1 < r.2) : s.blocks < 18446744073709551615 - (r.2 - r.1) ↔
    s.blocks.toNat + (r.2.toNat - r.1.toNat) < 2 ^ 64 - 1 := by
  have hmax : (18446744073709551615 : UInt64).toNat = 2 ^ 64 - 1 := rfl
  have hle : r.2 - r.1 ≤ 18446744073709551615 := by
    rw [UInt64.le_iff_toNat_le]
    have := (r.2 - r.1).toNat_lt
    omega
  rw [UInt64.lt_iff_toNat_lt, UInt64.toNat_sub_of_le _ _ hle, toNat_sub h]
  omega

theorem toNat_add_size (h : r.1 < r.2) (hfits : s.blocks < 18446744073709551615 - (r.2 - r.1)) :
    (s.blocks + (r.2 - r.1)).toNat = s.blocks.toNat + (r.2.toNat - r.1.toNat) ∧
      s.blocks.toNat + (r.2.toNat - r.1.toNat) < 2 ^ 64 - 1 := by
  have hroom := (lt_room_iff h).mp hfits
  rw [UInt64.toNat_add, toNat_sub h, mod_eq_of_lt (by omega)]
  exact ⟨rfl, hroom⟩

def pushBack (s : RangeSet) (r : Range) : Option RangeSet :=
  if hempty : r.1 ≥ r.2 then none
  else if hoverflow : s.blocks ≥ 18446744073709551615 - (r.2 - r.1) then none
  else
    have hr : r.1 < r.2 := UInt64.not_le.mp hempty
    have hsize := toNat_add_size hr (UInt64.not_le.mp hoverflow)
    some {
      ranges := s.ranges ++ [r]
      blocks := s.blocks + (r.2 - r.1)
      nonempty := by
        intro q hq
        rcases mem_append.mp hq with hq | hq
        · exact s.nonempty q hq
        · rwa [mem_singleton.mp hq]
      counted := by
        rw [hsize.1, s.counted, map_append, Ranges.count, Ranges.count, map_append, sum_append_nat]
        simp [Range.toNat]
      bounded := by rw [hsize.1]; exact hsize.2 }

theorem pushBack_eq (hr : r.1 < r.2) (hfits : s.blocks.toNat + (r.2.toNat - r.1.toNat) < 2 ^ 64 - 1) :
    ∃ s', s.pushBack r = some s' ∧ s'.ranges = s.ranges ++ [r] := by
  have hoverflow := UInt64.not_le.mpr ((lt_room_iff hr).mpr hfits)
  rw [pushBack, dif_neg (UInt64.not_le.mpr hr), dif_neg hoverflow]
  exact ⟨_, rfl, rfl⟩

theorem length_numbers (s : RangeSet) : s.numbers.length = s.blocks.toNat := by
  rw [numbers, Ranges.length_numbers, s.counted]

theorem numbers_of_ranges (h : s'.ranges = s.ranges ++ [r]) :
    s'.numbers = s.numbers ++ range' r.1.toNat (r.2.toNat - r.1.toNat) := by
  rw [numbers, h, map_append, map_singleton, Ranges.numbers_concat]
  rfl

def blockNumber : List Range → UInt64 → Option UInt64
  | [], _ => none
  | (begin, stop) :: ranges, idx =>
    if idx < stop - begin then some (begin + idx) else blockNumber ranges (idx - (stop - begin))

def getBlockNumber (s : RangeSet) (idx : UInt64) : Option UInt64 :=
  if idx < s.blocks then blockNumber s.ranges idx else none

theorem blockNumber_spec {ranges : List Range} (hne : ∀ r ∈ ranges, r.1 < r.2) (idx : UInt64) :
    (blockNumber ranges idx).map UInt64.toNat = (Ranges.numbers (ranges.map Range.toNat))[idx.toNat]? := by
  induction ranges generalizing idx with
  | nil => rfl
  | cons r ranges ih =>
    obtain ⟨begin, stop⟩ := r
    rw [forall_mem_cons] at hne
    have hsub : (stop - begin).toNat = stop.toNat - begin.toNat := toNat_sub hne.1
    rw [blockNumber, map_cons, Ranges.numbers_cons]
    by_cases hlt : idx < stop - begin
    · have hidx := hlt
      rw [UInt64.lt_iff_toNat_lt, hsub] at hidx
      have hstop := stop.toNat_lt
      have hsum : (begin + idx).toNat = begin.toNat + idx.toNat := by
        rw [UInt64.toNat_add, mod_eq_of_lt (by omega)]
      rw [if_pos hlt, getElem?_append_left (by rw [length_range']; exact hidx), Option.map_some, hsum]
      have hget : (range' begin.toNat (stop.toNat - begin.toNat))[idx.toNat]? = _ := getElem?_range' hidx
      rw [one_mul] at hget
      exact hget.symm
    · have hidx := hlt
      rw [UInt64.lt_iff_toNat_lt, hsub, not_lt] at hidx
      rw [if_neg hlt, ih hne.2, UInt64.toNat_sub_of_le _ _ (UInt64.not_lt.mp hlt), hsub,
        getElem?_append_right (by rw [length_range']; exact hidx), length_range']
      rfl

theorem getBlockNumber_spec (s : RangeSet) (idx : UInt64) :
    (s.getBlockNumber idx).map UInt64.toNat = s.numbers[idx.toNat]? := by
  rw [getBlockNumber]
  split_ifs with hlt
  · exact blockNumber_spec s.nonempty idx
  · rw [UInt64.not_lt, UInt64.le_iff_toNat_le, ← s.length_numbers] at hlt
    rw [getElem?_eq_none hlt]
    rfl

/-- The loop of `GetSubRanges`. -/
def subRanges (startIndex endIndex : UInt64) : List Range → UInt64 → RangeSet → Option RangeSet
  | [], _, _ => none
  | (rangeStart, rangeEnd) :: ranges, currentIndex, result =>
    let blocksInRange := rangeEnd - rangeStart
    if currentIndex + blocksInRange ≤ startIndex then
      subRanges startIndex endIndex ranges (currentIndex + blocksInRange) result
    else
      let trimmedStart := if currentIndex < startIndex then rangeStart + (startIndex - currentIndex) else rangeStart
      if currentIndex + blocksInRange ≥ endIndex then
        result.pushBack (trimmedStart, rangeEnd - (currentIndex + blocksInRange - endIndex))
      else do
        let result ← result.pushBack (trimmedStart, rangeEnd)
        subRanges startIndex endIndex ranges (currentIndex + blocksInRange) result

def getSubRanges (s : RangeSet) (startIndex numOfBlocks : UInt64) : Option RangeSet :=
  let endIndex := startIndex + numOfBlocks
  if startIndex > endIndex ∨ endIndex > s.blocks then none
  else if numOfBlocks = 0 then some empty
  else subRanges startIndex endIndex s.ranges 0 empty

theorem subRanges_spec {startIndex endIndex : UInt64} (hlt : startIndex.toNat < endIndex.toNat)
    {ranges : List Range} (hne : ∀ r ∈ ranges, r.1 < r.2) (currentIndex : UInt64) (result : RangeSet)
    (hcurrent : currentIndex.toNat < endIndex.toNat)
    (hend : endIndex.toNat ≤ currentIndex.toNat + Ranges.count (ranges.map Range.toNat))
    (hsmall : currentIndex.toNat + Ranges.count (ranges.map Range.toNat) < 2 ^ 64 - 1)
    (hresult : result.blocks.toNat = currentIndex.toNat - startIndex.toNat) :
    ∃ s, subRanges startIndex endIndex ranges currentIndex result = some s ∧
      s.numbers = result.numbers ++ ((Ranges.numbers (ranges.map Range.toNat)).take
        (endIndex.toNat - currentIndex.toNat)).drop (startIndex.toNat - currentIndex.toNat) := by
  induction ranges generalizing currentIndex result with
  | nil =>
    exact absurd (hend.trans (add_zero _).le) (not_le.mpr hcurrent)
  | cons r ranges ih =>
    obtain ⟨rangeStart, rangeEnd⟩ := r
    rw [forall_mem_cons] at hne
    have hr : rangeStart.toNat < rangeEnd.toNat := UInt64.lt_iff_toNat_lt.mp hne.1
    have hsub : (rangeEnd - rangeStart).toNat = rangeEnd.toNat - rangeStart.toNat := toNat_sub hne.1
    have hcount : Ranges.count (((rangeStart, rangeEnd) :: ranges).map Range.toNat) =
        (rangeEnd.toNat - rangeStart.toNat) + Ranges.count (ranges.map Range.toNat) := rfl
    have hnext : (currentIndex + (rangeEnd - rangeStart)).toNat =
        currentIndex.toNat + (rangeEnd.toNat - rangeStart.toNat) := by
      rw [UInt64.toNat_add, hsub, mod_eq_of_lt (by omega)]
    have hnumbers : Ranges.numbers (((rangeStart, rangeEnd) :: ranges).map Range.toNat) =
        range' rangeStart.toNat (rangeEnd.toNat - rangeStart.toNat) ++ Ranges.numbers (ranges.map Range.toNat) := rfl
    rw [hnumbers, subRanges]
    generalize currentIndex + (rangeEnd - rangeStart) = next at hnext ⊢
    by_cases hskip : next ≤ startIndex
    · have hskip' := hskip
      rw [UInt64.le_iff_toNat_le, hnext] at hskip'
      rw [if_pos hskip, Ranges.window_skip (by omega) (by omega)]
      obtain ⟨s, hs, hcode⟩ := ih hne.2 next result
        (by omega) (by omega) (by omega) (by omega)
      refine ⟨s, hs, ?_⟩
      rw [hcode, hnext, Nat.sub_sub, Nat.sub_sub]
    · have hskip' := hskip
      rw [UInt64.le_iff_toNat_le, hnext, not_le] at hskip'
      have htrim : (if currentIndex < startIndex then rangeStart + (startIndex - currentIndex) else rangeStart).toNat =
          rangeStart.toNat + (startIndex.toNat - currentIndex.toNat) := by
        have := rangeEnd.toNat_lt
        split_ifs with hbefore
        · have hbefore' := UInt64.lt_iff_toNat_lt.mp hbefore
          rw [UInt64.toNat_add, UInt64.toNat_sub_of_le _ _ (UInt64.le_of_lt hbefore), mod_eq_of_lt (by omega)]
        · rw [UInt64.not_lt, UInt64.le_iff_toNat_le] at hbefore
          omega
      rw [if_neg hskip]
      generalize (if currentIndex < startIndex then rangeStart + (startIndex - currentIndex) else rangeStart) =
        trimmedStart at htrim
      by_cases hlast : next ≥ endIndex
      · have hlast' := hlast
        rw [ge_iff_le, UInt64.le_iff_toNat_le, hnext] at hlast'
        have hstop : (rangeEnd - (next - endIndex)).toNat =
            rangeStart.toNat + (endIndex.toNat - currentIndex.toNat) := by
          have hover := UInt64.toNat_sub_of_le _ _ hlast
          rw [UInt64.toNat_sub_of_le _ _ (UInt64.le_iff_toNat_le.mpr (by omega)), hover]
          omega
        obtain ⟨s, hs, hranges⟩ := pushBack_eq (s := result)
          (r := (trimmedStart, rangeEnd - (next - endIndex)))
          (UInt64.lt_iff_toNat_lt.mpr (by simp only [htrim, hstop]; omega)) (by simp only [htrim, hstop]; omega)
        rw [if_pos hlast, Ranges.window_inside (by omega)]
        refine ⟨s, hs, ?_⟩
        rw [numbers_of_ranges hranges]
        simp only [htrim, hstop]
        congr 2
        omega
      · have hlast' := hlast
        rw [ge_iff_le, UInt64.le_iff_toNat_le, hnext, not_le] at hlast'
        obtain ⟨pushed, hpush, hranges⟩ := pushBack_eq (s := result) (r := (trimmedStart, rangeEnd))
          (UInt64.lt_iff_toNat_lt.mpr (by simp only [htrim]; omega)) (by simp only [htrim]; omega)
        have hcode := numbers_of_ranges hranges
        simp only [htrim] at hcode
        have hblocks : pushed.blocks.toNat = currentIndex.toNat + (rangeEnd.toNat - rangeStart.toNat) - startIndex.toNat := by
          rw [← length_numbers, hcode, length_append, length_range', length_numbers]
          omega
        obtain ⟨s, hs, hrest⟩ := ih hne.2 next pushed
          (by omega) (by omega) (by omega) (by omega)
        rw [if_neg hlast, hpush, Ranges.window_across (by omega) (by omega)]
        refine ⟨s, hs, ?_⟩
        have hzero : startIndex.toNat - (currentIndex.toNat + (rangeEnd.toNat - rangeStart.toNat)) = 0 := by omega
        rw [hrest, hcode, hnext, hzero, drop_zero, Nat.sub_sub, append_assoc]
        congr 3
        omega

theorem getSubRanges_spec {startIndex numOfBlocks : UInt64}
    (h : startIndex.toNat + numOfBlocks.toNat ≤ s.blocks.toNat) :
    ∃ sub, s.getSubRanges startIndex numOfBlocks = some sub ∧
      sub.numbers = (s.numbers.drop startIndex.toNat).take numOfBlocks.toNat := by
  have hbounded := s.bounded
  have hend : (startIndex + numOfBlocks).toNat = startIndex.toNat + numOfBlocks.toNat := by
    rw [UInt64.toNat_add, mod_eq_of_lt (by omega)]
  have hinside : ¬ (startIndex > startIndex + numOfBlocks ∨ startIndex + numOfBlocks > s.blocks) := by
    simp only [gt_iff_lt, UInt64.lt_iff_toNat_lt, hend, not_or]
    omega
  rw [getSubRanges, if_neg hinside]
  split_ifs with hzero
  · refine ⟨empty, rfl, ?_⟩
    rw [hzero]
    exact take_zero.symm
  · have hpos : 0 < numOfBlocks.toNat := pos_of_ne_zero fun h => hzero (UInt64.toNat_inj.mp h)
    have hlt : startIndex.toNat < (startIndex + numOfBlocks).toNat := by omega
    obtain ⟨sub, hsub, hcode⟩ := subRanges_spec hlt s.nonempty 0 empty
      (by rw [UInt64.toNat_zero]; omega) (by rw [← s.counted, UInt64.toNat_zero]; omega)
      (by rw [← s.counted, UInt64.toNat_zero]; omega) (by rw [UInt64.toNat_zero, Nat.zero_sub]; rfl)
    refine ⟨sub, hsub, ?_⟩
    have hempty : empty.numbers = [] := rfl
    rw [hcode, hempty, nil_append, hend, UInt64.toNat_zero, Nat.sub_zero, Nat.sub_zero, drop_take,
      Nat.add_sub_cancel_left]
    rfl

/-- There is a window wherever the set has blocks for it, and it numbers these from its start on. -/
theorem getSubRanges_window (s : RangeSet) (startIndex numOfBlocks : UInt64) :
    ((s.getSubRanges startIndex numOfBlocks).isSome ↔ startIndex.toNat + numOfBlocks.toNat ≤ s.blocks.toNat) ∧
    ∀ sub, s.getSubRanges startIndex numOfBlocks = some sub → sub.blocks = numOfBlocks ∧
      ∀ i < numOfBlocks, sub.getBlockNumber i = s.getBlockNumber (startIndex + i) := by
  by_cases h : startIndex.toNat + numOfBlocks.toNat ≤ s.blocks.toNat
  · obtain ⟨sub, hsub, hcode⟩ := getSubRanges_spec h
    rw [hsub]
    refine ⟨iff_of_true rfl h, ?_⟩
    rintro _ ⟨⟩
    have hblocks : sub.blocks = numOfBlocks := by
      rw [← UInt64.toNat_inj, ← length_numbers, hcode, length_take, length_drop, length_numbers]
      omega
    refine ⟨hblocks, fun i hi => Option.map_injective (fun _ _ => UInt64.toNat_inj.mp) ?_⟩
    have hlt := UInt64.lt_iff_toNat_lt.mp hi
    rw [getBlockNumber_spec, getBlockNumber_spec, hcode, getElem?_take_of_lt hlt, getElem?_drop, UInt64.toNat_add,
      mod_eq_of_lt (by have := s.bounded; omega)]
  · have hnone : s.getSubRanges startIndex numOfBlocks = none := by
      refine if_pos (or_iff_not_imp_left.mpr fun hle => ?_)
      have := numOfBlocks.toNat_lt
      have := startIndex.toNat_lt
      rw [gt_iff_lt, UInt64.lt_iff_toNat_lt, UInt64.toNat_add] at hle ⊢
      omega
    rw [hnone]
    exact ⟨iff_of_false nofun h, nofun⟩

end RangeSet

end AeraRecovery.BlockMap
