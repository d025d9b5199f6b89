import AeraRecovery.BlockMap.RangeSet
import AeraRecovery.Lib.Steps
import AeraRecovery.Lib.Text

namespace AeraRecovery.BlockMap

open Lib Text Steps Option

structure BlockMapData where
  path : Bytes
  fileSize : UInt64
  blockSize : UInt32
  blockRanges : RangeSet

/-- A line of the list of ranges. The second component is the number of blocks that are left. -/
def parseRange (state : RangeSet × UInt64) (line : Bytes) : Option (RangeSet × UInt64) := do
  let (start, rest) ← scanNumber line
  let (stop, _) ← scanNumber rest
  let rangeBlocks := stop - start
  if stop ≤ start ∨ rangeBlocks > state.2 then none
  else some ((state.1.pushBack (start, stop)).getD state.1, state.2 - rangeBlocks)

def parseBlockMapFile (content : Bytes) : Option BlockMapData :=
  match (trim content).splitOn 10 with
  | blockDev :: sizes :: count :: line :: lines => do
      let (fileSize, rest) ← scanNumber sizes
      let (size, _) ← scanNumber rest
      let blksize := size.toUInt32
      if fileSize = 0 ∨ blksize = 0 then none
      else
        let (rangeCount, _) ← scanNumber count
        let blocks := (fileSize - 1) / blksize.toUInt64 + 1
        if blocks > 4294967295 ∨ rangeCount = 0 ∨ (line :: lines).length + 3 ≠ (3 + rangeCount).toNat then none
        else
          let (ranges, remaining) ← (line :: lines).foldlM parseRange (RangeSet.empty, blocks)
          if remaining ≠ 0 then none else some ⟨blockDev, fileSize, blksize, ranges⟩
  | _ => none

structure BlockMapData.Valid (m : BlockMapData) : Prop where
  blockSize : 0 < m.blockSize.toNat
  fileSize : 0 < m.fileSize.toNat
  blocks : m.blockRanges.blocks.toNat = (m.fileSize.toNat - 1) / m.blockSize.toNat + 1
  small : m.blockRanges.blocks.toNat < 2 ^ 32

theorem parseRange_blocks {state state' : RangeSet × UInt64} {line : Bytes} {n : Nat} (hn : n < 2 ^ 64 - 1)
    (hs : state.1.blocks.toNat + state.2.toNat = n) (h : parseRange state line = some state') :
    state'.1.blocks.toNat + state'.2.toNat = n := by
  obtain ⟨⟨start, rest⟩, -, h⟩ := bind_eq_some_iff.mp h
  obtain ⟨⟨stop, rest'⟩, -, h⟩ := bind_eq_some_iff.mp h
  dsimp only at h
  split_ifs at h with hbad
  cases h
  rw [not_or, UInt64.not_le, gt_iff_lt, UInt64.not_lt] at hbad
  have hsub : (stop - start).toNat = stop.toNat - start.toNat := RangeSet.toNat_sub (r := (start, stop)) hbad.1
  have hle := UInt64.le_iff_toNat_le.mp hbad.2
  obtain ⟨set, hset, hranges⟩ := RangeSet.pushBack_eq (s := state.1) (r := (start, stop)) hbad.1
    (by dsimp only; omega)
  have hblocks : set.blocks.toNat = state.1.blocks.toNat + (stop.toNat - start.toNat) := by
    rw [← RangeSet.length_numbers, RangeSet.numbers_of_ranges hranges, List.length_append, List.length_range',
      RangeSet.length_numbers]
  rw [hset, getD_some, hblocks, UInt64.toNat_sub_of_le _ _ hbad.2, hsub]
  omega

theorem toNat_blocks {fileSize : UInt64} {blksize : UInt32} (hsize : fileSize ≠ 0) :
    ((fileSize - 1) / blksize.toUInt64 + 1).toNat = (fileSize.toNat - 1) / blksize.toNat + 1 := by
  have hpos : 1 ≤ fileSize.toNat := pos_of_ne_zero fun h => hsize (UInt64.toNat_inj.mp h)
  have hsub : (fileSize - 1).toNat = fileSize.toNat - 1 :=
    UInt64.toNat_sub_of_le _ _ (UInt64.le_iff_toNat_le.mpr hpos)
  have hle := Nat.div_le_self (fileSize.toNat - 1) blksize.toNat
  have hlt := fileSize.toNat_lt
  rw [UInt64.toNat_add, UInt64.toNat_div, hsub, UInt32.toNat_toUInt64, UInt64.toNat_one, Nat.mod_eq_of_lt (by omega)]

theorem valid_of_parse {content : Bytes} {m : BlockMapData} (h : parseBlockMapFile content = some m) : m.Valid := by
  rw [parseBlockMapFile] at h
  split at h
  · obtain ⟨⟨fileSize, rest⟩, -, h⟩ := bind_eq_some_iff.mp h
    obtain ⟨⟨size, rest'⟩, -, h⟩ := bind_eq_some_iff.mp h
    dsimp only at h
    split_ifs at h with hzero
    obtain ⟨⟨rangeCount, rest''⟩, -, h⟩ := bind_eq_some_iff.mp h
    split_ifs at h with hbad
    obtain ⟨⟨ranges, remaining⟩, hfold, h⟩ := bind_eq_some_iff.mp h
    dsimp only at h
    split_ifs at h with hleft
    cases h
    rw [not_or] at hzero hbad
    rw [gt_iff_lt, UInt64.not_lt, UInt64.le_iff_toNat_le, toNat_blocks hzero.1] at hbad
    have hlimit : (4294967295 : UInt64).toNat = 2 ^ 32 - 1 := rfl
    have htotal : ranges.blocks.toNat + remaining.toNat = (fileSize.toNat - 1) / size.toUInt32.toNat + 1 := by
      refine run_invariant (I := fun state : RangeSet × UInt64 =>
        state.1.blocks.toNat + state.2.toNat = (fileSize.toNat - 1) / size.toUInt32.toNat + 1)
        (fun _ _ _ hs hstep => parseRange_blocks (by omega) hs hstep) ?_ hfold
      have hempty : RangeSet.empty.blocks.toNat = 0 := rfl
      rw [hempty, zero_add, toNat_blocks hzero.1]
    rw [not_not] at hleft
    rw [hleft, UInt64.toNat_zero, add_zero] at htotal
    constructor
    · exact pos_of_ne_zero fun h => hzero.2 (UInt32.toNat_inj.mp h)
    · exact pos_of_ne_zero fun h => hzero.1 (UInt64.toNat_inj.mp h)
    · exact htotal
    · dsimp only
      omega
  · cases h

end AeraRecovery.BlockMap
