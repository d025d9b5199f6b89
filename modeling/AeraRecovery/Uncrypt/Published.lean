import AeraRecovery.Uncrypt.Scan
import AeraRecovery.Sideload.BlockProvider

namespace AeraRecovery.Uncrypt

open Lib Text BlockMap List Nat

theorem parseRange_rangeLine (set : RangeSet) (remaining : UInt64) {r : Nat × Nat} (hr : r.1 < r.2)
    (hfits : r.2 < 2 ^ 64)
    (hleft : r.2 - r.1 ≤ remaining.toNat) (hsmall : set.blocks.toNat + remaining.toNat < 2 ^ 64 - 1) :
    ∃ set' : RangeSet, parseRange (set, remaining) (Job.rangeLine r) =
        some (set', UInt64.ofNat (remaining.toNat - (r.2 - r.1))) ∧
      set'.numbers = set.numbers ++ range' r.1 (r.2 - r.1) := by
  have h₁ : (UInt64.ofNat r.1).toNat = r.1 := UInt64.toNat_ofNat_of_lt' (hr.trans hfits)
  have h₂ : (UInt64.ofNat r.2).toNat = r.2 := UInt64.toNat_ofNat_of_lt' hfits
  have hlt : UInt64.ofNat r.1 < UInt64.ofNat r.2 := by rwa [UInt64.lt_iff_toNat_lt, h₁, h₂]
  have hsub : (UInt64.ofNat r.2 - UInt64.ofNat r.1).toNat = r.2 - r.1 := by
    rw [UInt64.toNat_sub_of_le _ _ (UInt64.le_of_lt hlt), h₁, h₂]
  have hle : UInt64.ofNat r.2 - UInt64.ofNat r.1 ≤ remaining := by rwa [UInt64.le_iff_toNat_le, hsub]
  have hgood : ¬ (UInt64.ofNat r.2 ≤ UInt64.ofNat r.1 ∨ UInt64.ofNat r.2 - UInt64.ofNat r.1 > remaining) := by
    rw [not_or, UInt64.not_le, gt_iff_lt, UInt64.not_lt]
    exact ⟨hlt, hle⟩
  have hrest : remaining - (UInt64.ofNat r.2 - UInt64.ofNat r.1) = UInt64.ofNat (remaining.toNat - (r.2 - r.1)) := by
    rw [← hsub, ← UInt64.toNat_sub_of_le _ _ hle, UInt64.ofNat_toNat]
  obtain ⟨set', hset, hranges⟩ := RangeSet.pushBack_eq (s := set) (r := (UInt64.ofNat r.1, UInt64.ofNat r.2)) hlt
    (by dsimp only; rw [h₁, h₂]; omega)
  refine ⟨set', ?_, ?_⟩
  · rw [parseRange, Job.rangeLine, scanNumber_decimal (hr.trans hfits) (delimited_blank _)]
    simp only [Option.bind_eq_bind, Option.bind_some]
    rw [scanNumber_blank, ← append_nil (decimal r.2), scanNumber_decimal hfits delimited_nil]
    simp only [Option.bind_some, if_neg hgood, hset, Option.getD_some, hrest]
  · rw [RangeSet.numbers_of_ranges hranges, h₁, h₂]

theorem parseRanges {ranges : List (Nat × Nat)} (set : RangeSet) (remaining : UInt64)
    (hne : ∀ r ∈ ranges, r.1 < r.2) (hfits : ∀ r ∈ ranges, r.2 < 2 ^ 64)
    (hleft : Ranges.count ranges = remaining.toNat) (hsmall : set.blocks.toNat + remaining.toNat < 2 ^ 64 - 1) :
    ∃ set' : RangeSet, (ranges.map Job.rangeLine).foldlM parseRange (set, remaining) = some (set', 0) ∧
      set'.numbers = set.numbers ++ Ranges.numbers ranges := by
  induction ranges generalizing set remaining with
  | nil =>
    obtain rfl : remaining = 0 := UInt64.toNat_inj.mp hleft.symm
    exact ⟨set, rfl, (append_nil _).symm⟩
  | cons r ranges ih =>
    rw [forall_mem_cons] at hne hfits
    have hcount : Ranges.count (r :: ranges) = (r.2 - r.1) + Ranges.count ranges := rfl
    obtain ⟨next, hnext, hcode⟩ := parseRange_rangeLine set remaining hne.1 hfits.1 (by omega) hsmall
    have hrest : (UInt64.ofNat (remaining.toNat - (r.2 - r.1))).toNat = Ranges.count ranges := by
      rw [UInt64.toNat_ofNat_of_lt' (lt_of_le_of_lt (sub_le _ _) remaining.toNat_lt)]
      omega
    have hblocks : next.blocks.toNat = set.blocks.toNat + (r.2 - r.1) := by
      rw [← RangeSet.length_numbers, hcode, length_append, length_range', RangeSet.length_numbers]
    obtain ⟨set', hset', hcode'⟩ := ih next _ hne.2 hfits.2 hrest.symm (by omega)
    refine ⟨set', ?_, ?_⟩
    · rw [map_cons, foldlM_cons, hnext]
      exact hset'
    · rw [hcode', hcode, append_assoc]
      rfl

namespace Job

variable {j : Job} {ranges : List (Nat × Nat)} {t : Bytes}

def mapLines (j : Job) (ranges : List (Nat × Nat)) : List Bytes :=
  j.blkDev :: j.sizesLine :: decimal ranges.length :: ranges.map rangeLine

theorem mapText_eq (j : Job) (ranges : List (Nat × Nat)) : j.mapText ranges = unlines (j.mapLines ranges) := by
  simp only [mapText, mapLines, unlines, flatMap_cons, flatMap_map, append_assoc]

/-- What the code takes for granted: a device without white space in its name, and numbers that fit their types. The
ends of ranges are block numbers too. -/
structure Fits (j : Job) : Prop where
  name : j.blkDev ≠ []
  ink : ∀ c ∈ j.blkDev, isSpace c = false
  file : j.file.length < 2 ^ 63
  blksize : j.blksize < 2 ^ 63
  blocks : j.blocks < 2 ^ 31
  fibmap : ∀ i < j.blocks, j.fibmap i + 1 < 2 ^ 31

theorem newline_notMem {w : Bytes} (h : ∀ c ∈ w, isSpace c = false) : (10 : UInt8) ∉ w :=
  fun hmem => absurd (h 10 hmem) (by decide)

theorem newline_decimal (n : Nat) : (10 : UInt8) ∉ decimal n := newline_notMem fun _ => isSpace_of_mem_decimal

theorem newline_mapLines (hf : j.Fits) : ∀ l ∈ j.mapLines ranges, 10 ∉ l := by
  have hpair : ∀ a b, (10 : UInt8) ∉ decimal a ++ 32 :: decimal b := by
    intro a b
    rw [mem_append, mem_cons, not_or, not_or]
    exact ⟨newline_decimal a, by decide, newline_decimal b⟩
  rw [mapLines, forall_mem_cons, forall_mem_cons, forall_mem_cons]
  refine ⟨newline_notMem hf.ink, hpair _ _, newline_decimal _, ?_⟩
  rintro l hl
  obtain ⟨r, -, rfl⟩ := mem_map.mp hl
  exact hpair r.1 r.2

theorem skipSpace_mapText (hf : j.Fits) (t : Bytes) : skipSpace (j.mapText ranges ++ t) = j.mapText ranges ++ t := by
  rw [mapText, append_assoc, append_assoc, append_assoc, append_assoc, append_assoc, append_assoc]
  exact skipSpace_append hf.name hf.ink _

theorem lines_blank (hf : j.Fits) (hne : ranges ≠ []) (ht : ∀ c ∈ t, isSpace c = true) :
    (trim (j.mapText ranges ++ t)).splitOn 10 = j.mapLines ranges := by
  obtain ⟨init, r, rfl⟩ : ∃ init r, ranges = init ++ [r] := by
    rcases eq_nil_or_concat ranges with h | ⟨init, r, h⟩
    · exact absurd h hne
    · exact ⟨init, r, h.trans concat_eq_append⟩
  have hlines : ∀ l ∈ j.mapLines (init ++ [r]), 10 ∉ l := newline_mapLines hf
  have hsplit : j.mapLines (init ++ [r]) =
      (j.blkDev :: j.sizesLine :: decimal (init ++ [r]).length :: init.map rangeLine) ++ [rangeLine r] := by
    rw [mapLines, map_append, map_singleton]
    rfl
  rw [trim, skipSpace_mapText hf, mapText_eq, hsplit]
  rw [hsplit] at hlines
  generalize j.blkDev :: j.sizesLine :: decimal (init ++ [r]).length :: init.map rangeLine = before at hlines
  have hend : unlines (before ++ [rangeLine r]) ++ t =
      unlines before ++ (decimal r.1 ++ [32]) ++ decimal r.2 ++ ([10] ++ t) := by
    simp only [unlines, rangeLine, flatMap_append, flatMap_singleton, append_assoc, cons_append, nil_append]
  have hblank : ∀ c ∈ [10] ++ t, isSpace c = true := by
    intro c hc
    rcases mem_append.mp hc with hc | hc
    · rw [mem_singleton.mp hc]
      rfl
    · exact ht c hc
  rw [hend, rdropWhile_append_of_all _ hblank,
    rdropWhile_token (decimal_ne_nil r.2) fun c hc => isSpace_of_mem_decimal hc, append_assoc, append_assoc,
    splitOn_unlines fun l hl => hlines l (mem_append_left _ hl)]
  congr 1
  exact splitOn_eq_singleton (hlines _ (mem_append_right _ (mem_singleton_self _)))

theorem lines_more (hf : j.Fits) (ht : ¬ ∀ c ∈ t, isSpace c = true) :
    ∃ l more, (trim (j.mapText ranges ++ t)).splitOn 10 = j.mapLines ranges ++ l :: more := by
  have hne : t.rdropWhile isSpace ≠ [] := fun hnil => ht (rdropWhile_eq_nil_iff.mp hnil)
  obtain ⟨l, more, hmore⟩ := exists_cons_of_ne_nil (splitOn_ne_nil 10 (t.rdropWhile isSpace))
  refine ⟨l, more, ?_⟩
  rw [trim, skipSpace_mapText hf, rdropWhile_append_of_ne _ hne, mapText_eq, splitOn_unlines (newline_mapLines hf), hmore]

theorem scan_sizesLine (hf : j.Fits) :
    scanNumber j.sizesLine = some (UInt64.ofNat j.file.length, 32 :: decimal j.blksize) ∧
      scanNumber (32 :: decimal j.blksize) = some (UInt64.ofNat j.blksize, []) := by
  have hfile := hf.file
  have hblksize := hf.blksize
  refine ⟨scanNumber_decimal (by omega) (delimited_blank _), ?_⟩
  rw [scanNumber_blank, ← append_nil (decimal j.blksize)]
  exact scanNumber_decimal (by omega) delimited_nil

theorem length_ranges_le (hne : ∀ r ∈ ranges, r.1 < r.2) : ranges.length ≤ Ranges.count ranges := by
  induction ranges with
  | nil => exact le_rfl
  | cons r ranges ih =>
    rw [forall_mem_cons] at hne
    have hcount : Ranges.count (r :: ranges) = (r.2 - r.1) + Ranges.count ranges := rfl
    have := ih hne.2
    rw [length_cons]
    omega

theorem parse_mapLines (hj : j.Mapped) (hf : j.Fits) (hsize : j.blksize < 2 ^ 32) {content : Bytes}
    {ranges : List (Nat × Nat)} (hne : ∀ r ∈ ranges, r.1 < r.2)
    (hnumbers : Ranges.numbers ranges = (range j.blocks).map j.fibmap) {more : List Bytes}
    (hlines : (trim content).splitOn 10 = j.mapLines ranges ++ more) :
    (more ≠ [] → parseBlockMapFile content = none) ∧ (more = [] → ∃ set, parseBlockMapFile content =
        some ⟨j.blkDev, UInt64.ofNat j.file.length, (UInt64.ofNat j.blksize).toUInt32, set⟩ ∧
          set.numbers = Ranges.numbers ranges) := by
  have hcount : Ranges.count ranges = j.blocks := by
    rw [← Ranges.length_numbers, hnumbers, length_map, length_range]
  have hlen := length_ranges_le hne
  have hblocks := hf.blocks
  have hfits : ∀ r ∈ ranges, r.2 < 2 ^ 64 := by
    intro r hr
    have hmem : r.2 - 1 ∈ Ranges.numbers ranges := by
      have := hne r hr
      exact mem_flatMap.mpr ⟨r, hr, mem_range'_1.mpr (by omega)⟩
    rw [hnumbers] at hmem
    obtain ⟨i, hi, heq⟩ := mem_map.mp hmem
    have := hf.fibmap i (mem_range.mp hi)
    omega
  obtain ⟨hscan, hscan'⟩ := scan_sizesLine hf
  have hfile : (UInt64.ofNat j.file.length).toNat = j.file.length :=
    UInt64.toNat_ofNat_of_lt' (hf.file.trans (by decide))
  have hblk : (UInt64.ofNat j.blksize).toUInt32.toNat = j.blksize := by
    rw [UInt64.toNat_toUInt32, UInt64.toNat_ofNat_of_lt' (hsize.trans (by decide)), mod_eq_of_lt hsize]
  have hfile₀ : UInt64.ofNat j.file.length ≠ 0 := fun h => hj.file.ne' (hfile.symm.trans (congrArg UInt64.toNat h))
  have hblk₀ : (UInt64.ofNat j.blksize).toUInt32 ≠ 0 := fun h => hj.blksize.ne' (hblk.symm.trans (congrArg UInt32.toNat h))
  have htotal : ((UInt64.ofNat j.file.length - 1) / (UInt64.ofNat j.blksize).toUInt32.toUInt64 + 1).toNat = _ :=
    toNat_blocks hfile₀
  rw [hfile, hblk] at htotal
  change _ = j.blocks at htotal
  have hcountLine : scanNumber (decimal ranges.length) = some (UInt64.ofNat ranges.length, []) := by
    rw [← append_nil (decimal ranges.length)]
    exact scanNumber_decimal (by omega) delimited_nil
  have hranges : (UInt64.ofNat ranges.length).toNat = ranges.length :=
    UInt64.toNat_ofNat_of_lt' (lt_of_lt_of_le (show ranges.length < 2 ^ 31 by omega) (by decide))
  have hthree : (3 + UInt64.ofNat ranges.length).toNat = 3 + ranges.length := by
    have h3 : (3 : UInt64).toNat = 3 := rfl
    rw [UInt64.toNat_add, hranges, h3, mod_eq_of_lt (by omega)]
  have hlimit : ¬ (UInt64.ofNat j.file.length - 1) / (UInt64.ofNat j.blksize).toUInt32.toUInt64 + 1 > 4294967295 := by
    rw [gt_iff_lt, UInt64.lt_iff_toNat_lt, htotal, not_lt]
    exact (le_of_lt hblocks).trans (by decide)
  cases ranges with
  | nil =>
    have hpos : 0 < j.blocks := succ_pos _
    rw [← hcount] at hpos
    exact absurd hpos (lt_irrefl 0)
  | cons r ranges =>
    have hcount₀ : UInt64.ofNat (r :: ranges).length ≠ 0 := fun h => by
      rw [h] at hranges
      cases hranges
    have hsplit : j.mapLines (r :: ranges) ++ more = j.blkDev :: j.sizesLine :: decimal (r :: ranges).length ::
        rangeLine r :: (ranges.map rangeLine ++ more) := rfl
    have hall : (rangeLine r :: (ranges.map rangeLine ++ more)).length + 3 =
        (r :: ranges).length + more.length + 3 := by
      simp only [length_cons, length_append, length_map]
      omega
    constructor
    · intro hmore
      have hpos := length_pos_of_ne_nil hmore
      have hbad : (rangeLine r :: (ranges.map rangeLine ++ more)).length + 3 ≠
          (3 + UInt64.ofNat (r :: ranges).length).toNat := by
        omega
      rw [parseBlockMapFile, hlines, hsplit]
      simp only [hscan, hscan', hcountLine, Option.bind_eq_bind, Option.bind_some, hfile₀, hblk₀, or_self, if_false,
        hbad, ne_eq, not_false_eq_true, or_true, if_true]
    · rintro rfl
      have hempty : RangeSet.empty.blocks.toNat = 0 := rfl
      obtain ⟨set, hfold, hcode⟩ := parseRanges RangeSet.empty
        ((UInt64.ofNat j.file.length - 1) / (UInt64.ofNat j.blksize).toUInt32.toUInt64 + 1) hne hfits
        (by rw [htotal, hcount]) (by omega)
      rw [map_cons] at hfold
      have hgood : ¬ ((rangeLine r :: ranges.map rangeLine).length + 3 ≠
          (3 + UInt64.ofNat (r :: ranges).length).toNat) := by
        rw [append_nil] at hall
        rw [hall, hthree, not_not, length_nil]
        omega
      refine ⟨set, ?_, hcode⟩
      rw [parseBlockMapFile, hlines, hsplit, append_nil]
      simp only [hscan, hscan', hcountLine, Option.bind_eq_bind, Option.bind_some, hfile₀, hblk₀, or_self, if_false,
        hlimit, hcount₀, hgood, hfold, ne_eq, not_true_eq_false]

variable {device : Nat → UInt8}

theorem written_last (hj : j.Mapped) {m i x : Nat} (hm : m ≤ j.blocks) (hi : i < m)
    (hlast : ∀ k, i < k → k < m → j.fibmap k ≠ j.fibmap i) (hx : x < j.blksize) :
    j.written device m (j.fibmap i * j.blksize + x) = (j.image i).getD x 0 := by
  induction m with
  | zero => exact absurd hi (not_lt_zero i)
  | succ m ih =>
    have hlen := length_image hj hm
    rw [written, writeAtOffset, hlen, mul_comm j.blksize]
    by_cases him : i = m
    · subst him
      rw [if_pos (by omega), Nat.add_sub_cancel_left]
    · have hne := hlast m (by omega) (lt_succ_self m)
      have hout : ¬ (j.fibmap m * j.blksize ≤ j.fibmap i * j.blksize + x ∧
          j.fibmap i * j.blksize + x < j.fibmap m * j.blksize + j.blksize) := by
        rcases lt_or_gt_of_ne hne with hlt | hgt
        · have := mul_le_mul_right j.blksize hlt
          rw [succ_mul] at this
          omega
        · have := mul_le_mul_right j.blksize hgt
          rw [succ_mul] at this
          omega
      rw [if_neg hout]
      exact ih (by omega) (by omega) fun k hik hkm => hlast k hik (by omega)

def Starts (j : Job) (device : Nat → UInt8) : Prop :=
  ∀ i < j.blocks, ∀ x < (j.plain i).length, (j.plain i)[x]? = some (device (j.fibmap i * j.blksize + x))

/-- Blocks of the file that share a device block do not contradict each other: the last of them that is written there
begins with each of the others. A file system that gives each block its own device block has only the trivial case. -/
def Compatible (j : Job) : Prop :=
  ∀ i k, i ≤ k → k < j.blocks → j.fibmap i = j.fibmap k →
    (∀ l, k < l → l < j.blocks → j.fibmap l ≠ j.fibmap k) → j.plain i <+: j.image k

theorem exists_last (j : Job) {i : Nat} (hi : i < j.blocks) :
    ∃ k, i ≤ k ∧ k < j.blocks ∧ j.fibmap i = j.fibmap k ∧ ∀ l, k < l → l < j.blocks → j.fibmap l ≠ j.fibmap k := by
  let same := fun k => j.fibmap k = j.fibmap i
  have hle : i ≤ j.blocks - 1 := by omega
  have hspec : same (findGreatest same (j.blocks - 1)) := findGreatest_spec hle rfl
  have hbound : findGreatest same (j.blocks - 1) ≤ j.blocks - 1 := findGreatest_le _
  have hafter : i ≤ findGreatest same (j.blocks - 1) := le_findGreatest hle rfl
  refine ⟨findGreatest same (j.blocks - 1), hafter, by omega, hspec.symm, fun l hl hlt hsame => ?_⟩
  exact findGreatest_is_greatest hl (by omega) (hsame.trans hspec)

theorem starts_iff (hj : j.Mapped) : j.Starts (j.written device j.blocks) ↔ j.Compatible := by
  have hbyte : ∀ {i k x}, k < j.blocks → j.fibmap i = j.fibmap k →
      (∀ l, k < l → l < j.blocks → j.fibmap l ≠ j.fibmap k) → x < (j.plain i).length →
      some (j.written device j.blocks (j.fibmap i * j.blksize + x)) = (j.image k)[x]? := by
    intro i k x hk hsame hlast hx
    have hsmall : x < j.blksize := by
      rw [length_plain] at hx
      omega
    rw [hsame, written_last hj le_rfl hk hlast hsmall,
      getD_eq_getElem _ _ (by rwa [length_image hj hk]), getElem?_eq_getElem]
  constructor
  · intro h i k hik hk hsame hlast
    rw [prefix_iff_getElem?]
    intro x hx
    rw [← hbyte hk hsame hlast hx, ← h i (by omega) x hx, getElem?_eq_getElem hx]
  · intro h i hi x hx
    obtain ⟨k, hik, hk, hsame, hlast⟩ := exists_last j hi
    have hpref := prefix_iff_getElem?.mp (h i k hik hk hsame hlast) x hx
    rw [hbyte hk hsame hlast hx, hpref, getElem?_eq_getElem hx]

theorem compatible_of_injective (h : ∀ i k, i < j.blocks → k < j.blocks → j.fibmap i = j.fibmap k → i = k) :
    j.Compatible := by
  intro i k hik hk hsame _
  obtain rfl := h i k (by omega) hk hsame
  exact prefix_append _ _

/-- The parser reads from the map file what the file system says about the file, and an encrypted file has been
written to its blocks in the clear. -/
def Published (j : Job) (map : Bytes) (device : Nat → UInt8) : Prop :=
  (∃ m, parseBlockMapFile map = some m ∧ m.path = j.blkDev ∧ m.fileSize.toNat = j.file.length ∧
    m.blockSize.toNat = j.blksize ∧ m.blockRanges.numbers = (range j.blocks).map j.fibmap) ∧
    (j.encrypted = true → j.Starts device)

end Job

/-- A run that returns 0 has published the map if and only if the block size fits the parser's type, the leftover is
blank from the end of the new map on, and no two blocks contradict each other on the device. -/
theorem productBlockMap_published_iff (j : Job) (leftover : Bytes) (device : Nat → UInt8)
    (out : Bytes × (Nat → UInt8)) (hj : j.Mapped) (hf : j.Fits) (h : j.productBlockMap leftover device = .ok out) :
    j.Published out.1 out.2 ↔
      j.blksize < 2 ^ 32 ∧ (∀ c ∈ leftover.drop (j.mapText (j.runs j.blocks)).length, isSpace c = true) ∧
        (j.encrypted = true → j.Compatible) := by
  obtain rfl := Job.productBlockMap_ok hj h
  obtain ⟨hnumbers, hne⟩ := Job.runs_numbers j j.blocks
  have hranges : j.runs j.blocks ≠ [] := by
    intro hnil
    rw [hnil] at hnumbers
    have := congrArg length hnumbers
    rw [length_map, length_range] at this
    exact absurd this (succ_ne_zero _).symm
  have hdevice : (j.encrypted = true → j.Starts (if j.encrypted = true then j.written device j.blocks else device)) ↔
      (j.encrypted = true → j.Compatible) := by
    refine imp_congr_right fun henc => ?_
    rw [if_pos henc]
    exact Job.starts_iff hj
  rw [Job.Published, hdevice, ← and_assoc]
  refine and_congr_left' ?_
  constructor
  · rintro ⟨m, hparse, -, -, hsize, -⟩
    have hsmall : j.blksize < 2 ^ 32 := hsize ▸ m.blockSize.toNat_lt
    refine ⟨hsmall, ?_⟩
    by_contra hmore
    obtain ⟨l, more, hlines⟩ := Job.lines_more hf hmore
    have hnone := (Job.parse_mapLines hj hf hsmall hne hnumbers hlines).1 (cons_ne_nil _ _)
    rw [Bytes.overwrite, hnone] at hparse
    cases hparse
  · rintro ⟨hsmall, hblank⟩
    have hlines := Job.lines_blank hf hranges hblank
    rw [← append_nil (j.mapLines _)] at hlines
    obtain ⟨set, hparse, hcode⟩ := (Job.parse_mapLines hj hf hsmall hne hnumbers hlines).2 rfl
    refine ⟨_, hparse, rfl, ?_, ?_, hcode.trans hnumbers⟩
    · exact UInt64.toNat_ofNat_of_lt' (hf.file.trans (by decide))
    · rw [UInt64.toNat_toUInt32, UInt64.toNat_ofNat_of_lt' (hsmall.trans (by decide)), mod_eq_of_lt hsmall]

def threeBytes : Job where
  blkDev := [47, 100]
  file := [1, 2, 3]
  blksize := 2
  fibmap i := i + 7
  encrypted := true
  f2fs := false
  succeeds _ := true

theorem mapped_threeBytes : threeBytes.Mapped := ⟨by decide, by decide, fun i _ => succ_ne_zero (i + 6)⟩

theorem fits_threeBytes : threeBytes.Fits := by
  refine ⟨by decide, by decide +kernel, by decide, by decide, by decide, fun i hi => ?_⟩
  have hblocks : threeBytes.blocks = 2 := rfl
  change i + 7 + 1 < 2 ^ 31
  omega

/-- The leftover of an interrupted run is not longer than the new map. -/
theorem productBlockMap_published_threeBytes :
    ∃ out, threeBytes.productBlockMap (Bytes.ascii "/d\n3 2\n") (fun _ => 0) = .ok out ∧
      threeBytes.Published out.1 out.2 := by
  have hcompatible : threeBytes.Compatible :=
    Job.compatible_of_injective fun i k _ _ h => add_right_cancel h
  exact ⟨_, rfl, (productBlockMap_published_iff threeBytes (Bytes.ascii "/d\n3 2\n") (fun _ => 0) _ mapped_threeBytes
    fits_threeBytes rfl).mpr ⟨by decide, by decide +kernel, fun _ => hcompatible⟩⟩

/-- The temporary file of an interrupted run for a file in two ranges is one line too long for a file in one range. -/
theorem productBlockMap_keeps_leftover :
    ∃ out, threeBytes.productBlockMap (threeBytes.mapText [(7, 8), (19, 20)]) (fun _ => 0) = .ok out ∧
      parseBlockMapFile out.1 = none := by
  exact ⟨_, rfl, rfl⟩

open Sideload BlockLayout

/-- Every call that `Follows` the blocks of a published file reads the file back from the device. -/
theorem published_read_back (j : Job) (map : Bytes) (device : Nat → UInt8) (hj : j.Mapped) (hf : j.Fits)
    (hmap : j.Published map device) (hplain : j.encrypted = false → j.Starts device) :
    ∃ m, parseBlockMapFile map = some m ∧ ∀ (fuseBlockSize fetchSize startBlock : UInt32)
      (aligned : fuseBlockSize % m.blockSize = 0) (fd : Device) (out : Bytes),
      startBlock.toNat * fuseBlockSize.toNat + fetchSize.toNat ≤ j.file.length →
      (BlockLayout.ofBlockMap m fuseBlockSize aligned).Follows fetchSize startBlock →
      (∀ x c, fd.bytes[x]? = some c → c = device x) →
      (FuseBlockDataProvider.mk (.ofBlockMap m fuseBlockSize aligned) fd).readBlockAlignedData fetchSize startBlock =
        some out →
      out = j.file.slice (startBlock.toNat * fuseBlockSize.toNat) fetchSize.toNat := by
  obtain ⟨⟨m, hparse, -, hsize, hblock, hnumbers⟩, hencrypted⟩ := hmap
  have hstarts : j.Starts device := by
    cases henc : j.encrypted with
    | true => exact hencrypted henc
    | false => exact hplain henc
  refine ⟨m, hparse, fun fuseBlockSize fetchSize startBlock aligned fd out hrange hfollows hdevice hread => ?_⟩
  have hout := exact_of_follows (valid_ofBlockMap hparse aligned) (hrange.trans hsize.ge) hfollows fd out hread
  refine map_injective_iff.mpr (Option.some_injective _) ?_
  rw [hout, @map_some_slice ⟨j.file, hf.file⟩ _ _ hrange]
  refine map_congr_left fun i hi => ?_
  have hlt : i < j.file.length := (mem_range'_1.mp hi).2.trans_le hrange
  have hmod := mod_lt i hj.blksize
  have hi' := div_add_mod' i j.blksize
  have hk : i / j.blksize < j.blocks := (Job.lt_blocks_iff hj).mpr (by omega)
  have hplace : (FuseBlockDataProvider.mk (.ofBlockMap m fuseBlockSize aligned) fd).fileByte i =
      fd.bytes[j.fibmap (i / j.blksize) * j.blksize + i % j.blksize]? := by
    simp only [FuseBlockDataProvider.fileByte, BlockLayout.ofBlockMap, hnumbers, hblock, getElem?_map,
      getElem?_range hk, Option.map_some, Option.bind_some]
  -- a byte that was read is on the device, where its block of the file starts
  obtain ⟨b, -, hb⟩ := mem_map.mp (hout ▸ mem_map_of_mem (f := FuseBlockDataProvider.fileByte _) hi)
  have hfile := hstarts _ hk (i % j.blksize) (by rw [j.length_plain]; omega)
  rw [Job.plain, Bytes.slice, getElem?_take_of_lt hmod, getElem?_drop, hi'] at hfile
  rw [← hb, hdevice _ b (hplace.symm.trans hb.symm)]
  exact hfile.symm

def fileAt14 : Device := ⟨replicate 14 0 ++ threeBytes.file, by decide⟩

theorem published_read_back_threeBytes : ∃ m, parseBlockMapFile (Bytes.ascii "/d\n3 2\n1\n7 9\n") = some m ∧
    ∃ (aligned : (2 : UInt32) % m.blockSize = 0) (out : Bytes),
      (FuseBlockDataProvider.mk (.ofBlockMap m 2 aligned) fileAt14).readBlockAlignedData 2 0 = some out ∧
      out = threeBytes.file.slice 0 2 := by
  have hstarts : threeBytes.Starts fun x => fileAt14.bytes.getD x 0 := by
    unfold Job.Starts
    decide
  obtain ⟨m, hparse, hread⟩ := published_read_back threeBytes (Bytes.ascii "/d\n3 2\n1\n7 9\n") _ mapped_threeBytes
    fits_threeBytes
    ⟨⟨_, rfl, by decide⟩, fun _ => hstarts⟩ nofun
  obtain rfl := Option.some.inj hparse
  refine ⟨_, rfl, rfl, _, rfl, hread 2 2 0 rfl fileAt14 _ (by decide) (.inr (by decide)) (fun x c h => ?_) rfl⟩
  rw [getD_eq_getElem?_getD, h, Option.getD_some]

end AeraRecovery.Uncrypt
