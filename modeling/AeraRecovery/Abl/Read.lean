import AeraRecovery.Abl.Inspect

namespace AeraRecovery.Abl.Read

open Lib Bytes Image Inspect List Option

structure AblSample where
  name : String
  digest : String
  status : AblStatus

/-- The extent loop of `ReadAbl`; `none` is its early return. -/
def extentLoop (bytes : Bytes) (e : Elf) (capacity : Nat) : List Nat → Nat → Option Nat
  | [], extent => some extent
  | i :: rest, extent =>
    match program bytes (e.header i) e.wide capacity with
    | none => none
    | some part => extentLoop bytes e capacity rest (if part.size ≠ 0 then max extent part.stop else extent)

variable (partition : Bytes)

/-- How many bytes `ReadAbl` reads of a partition of an accepted size. -/
def readExtent : Option Nat :=
  match elfExtent (partition.take 64) partition.length with
  | none => some partition.length
  | some e =>
    let bytes := partition.take (max 64 (e.table.offset + e.table.size))
    extentLoop bytes e partition.length (range e.count) bytes.length

/-- `ReadAbl` on a readable device holding `partition`. -/
def readAbl (lzma : Option Lzma) (sha256 : Bytes → String) (partition : Bytes) (name : String)
    (cache : List AblSample) : AblSample :=
  let result : AblSample := ⟨name, "", .unknown⟩
  if partition.length < 64 ∨ maxInput < partition.length then result
  else match readExtent partition with
    | none => result
    | some extent =>
      if maxInput < extent then result
      else
        let bytes := partition.take extent
        let digest := sha256 bytes
        match cache.find? fun previous => previous.name = name ∧ previous.digest = digest with
        | some previous => ⟨name, digest, previous.status⟩
        | none => ⟨name, digest, inspectAbl lzma bytes⟩

def part (e : Elf) (i : Nat) : Option Range :=
  program partition (e.header i) e.wide partition.length

/-- Some program header without contents starts behind the ELF header, the
program header table and the end of every segment that has contents. -/
def DetachedEmptySegment : Prop :=
  ∃ e, elfExtent partition partition.length = some e ∧
    ∃ i < e.count, ∃ r, part partition e i = some r ∧ r.size = 0 ∧ 64 < r.offset ∧ e.table.stop < r.offset ∧
      ∀ j < e.count, ∀ q, part partition e j = some q → q.size ≠ 0 → q.stop < r.offset

/-- Scanning the loadable segments finds an image and does not give up. -/
def ConclusiveScan (lzma : Option Lzma) (partition : Bytes) : Prop :=
  ∃ e s, elfExtent partition partition.length = some e ∧
    visitPrograms lzma partition e (range e.count) {} = some s ∧ s.result ≠ .unknown

variable {lzma : Option Lzma} {partition : Bytes} {e : Elf} {n : Nat}

section

variable (he : elfExtent partition partition.length = some e) (hn : e.table.stop ≤ n)

include he hn in
theorem program_take_of_lt {i capacity : Nat} (hi : i < e.count) :
    program (partition.take n) (e.header i) e.wide capacity = program partition (e.header i) e.wide capacity :=
  program_take ((header_stop he hi).trans hn)

include he hn in
theorem extentLoop_none (is : List Nat) (his : ∀ i ∈ is, i < e.count) (start : Nat)
    (h : extentLoop (partition.take n) e partition.length is start = none) : ∃ i ∈ is, part partition e i = none := by
  induction is generalizing start with
  | nil => simp [extentLoop] at h
  | cons i is ih =>
    simp only [extentLoop, program_take_of_lt he hn (his i mem_cons_self)] at h
    cases hp : part partition e i with
    | none => exact ⟨i, mem_cons_self, hp⟩
    | some r =>
      rw [show program partition (e.header i) e.wide partition.length = some r from hp] at h
      obtain ⟨j, hj, hnone⟩ := ih (fun j hj => his j (mem_cons_of_mem _ hj)) _ h
      exact ⟨j, mem_cons_of_mem _ hj, hnone⟩

include he hn in
theorem extentLoop_some (is : List Nat) (his : ∀ i ∈ is, i < e.count) (start extent : Nat)
    (h : extentLoop (partition.take n) e partition.length is start = some extent) :
    start ≤ extent ∧ (∀ i ∈ is, ∃ r, part partition e i = some r ∧ (r.size ≠ 0 → r.stop ≤ extent)) ∧
      (extent = start ∨ ∃ i ∈ is, ∃ r, part partition e i = some r ∧ r.size ≠ 0 ∧ r.stop = extent) := by
  induction is generalizing start with
  | nil => simp_all [extentLoop]
  | cons i is ih =>
    simp only [extentLoop, program_take_of_lt he hn (his i mem_cons_self)] at h
    cases hp : part partition e i with
    | none =>
      rw [show program partition (e.header i) e.wide partition.length = none from hp] at h
      simp at h
    | some r =>
      rw [show program partition (e.header i) e.wide partition.length = some r from hp] at h
      obtain ⟨hle, hall, hreach⟩ := ih (fun j hj => his j (mem_cons_of_mem _ hj)) _ h
      have hstart : start ≤ extent ∧ (r.size ≠ 0 → r.stop ≤ extent) := by
        split at hle <;> omega
      refine ⟨hstart.1, forall_mem_cons.mpr ⟨⟨r, hp, hstart.2⟩, hall⟩, ?_⟩
      rcases hreach with hreach | ⟨j, hj, q, hq⟩
      · by_cases hr : r.size ≠ 0 ∧ extent = r.stop
        · exact .inr ⟨i, mem_cons_self, r, hp, hr.1, hr.2.symm⟩
        · left
          split at hreach <;> omega
      · exact .inr ⟨j, mem_cons_of_mem _ hj, q, hq⟩

include he hn in
theorem visitPrograms_prefix (hlen : n ≤ partition.length) (is : List Nat) (his : ∀ i ∈ is, i < e.count)
    (hin : ∀ i ∈ is, ∃ r, part partition e i = some r ∧ r.stop ≤ n) (s : Scan) :
    visitPrograms lzma (partition.take n) e is s = visitPrograms lzma partition e is s := by
  induction is generalizing s with
  | nil => rfl
  | cons i is ih =>
    have hi := his i mem_cons_self
    obtain ⟨r, hr, hstop⟩ := hin i mem_cons_self
    have hfull : program partition (e.header i) e.wide partition.length = some r := hr
    have hshort : program (partition.take n) (e.header i) e.wide (partition.take n).length = some r := by
      rw [program_take_of_lt he hn hi, length_take_of_le hlen]
      rw [program_iff] at hfull ⊢
      exact ⟨hfull.1, hfull.2.1, hstop⟩
    have htype : le32 (partition.take n) (e.header i) = le32 partition (e.header i) := by
      apply le32_take
      have := header_stop he hi
      split at this <;> omega
    simp only [visitPrograms, hfull, hshort, htype, slice_take hstop,
      ih (fun j hj => his j (mem_cons_of_mem _ hj)) fun j hj => hin j (mem_cons_of_mem _ hj)]

include he hn in
/-- A header that points behind the prefix makes the inspection give up. -/
theorem visitPrograms_beyond (hlen : n ≤ partition.length) (is : List Nat) (his : ∀ i ∈ is, i < e.count)
    (hout : ∃ i ∈ is, ∃ r, part partition e i = some r ∧ n < r.stop) (s : Scan) :
    visitPrograms lzma (partition.take n) e is s = none := by
  induction is generalizing s with
  | nil => simp at hout
  | cons i is ih =>
    simp only [visitPrograms, program_take_of_lt he hn (his i mem_cons_self), length_take_of_le hlen]
    cases hp : program partition (e.header i) e.wide n with
    | none => rfl
    | some q =>
      obtain ⟨j, hj, r, hr, hstop⟩ := hout
      have htail : ∃ i ∈ is, ∃ r, part partition e i = some r ∧ n < r.stop := by
        rcases mem_cons.mp hj with rfl | hj
        · -- this header was accepted below `n`, so it is not the one beyond it
          rw [program_iff] at hp
          have hr' := program_iff.mp hr
          simp only [Range.stop] at hp hstop
          omega
        · exact ⟨j, hj, r, hr, hstop⟩
      have h := ih (fun j hj => his j (mem_cons_of_mem _ hj)) htail
      simp only [h, ite_self]

end

theorem visitPrograms_ne_none (is : List Nat) (s : Scan) (h : visitPrograms lzma partition e is s ≠ none) :
    ∀ i ∈ is, part partition e i ≠ none := by
  induction is generalizing s with
  | nil => simp
  | cons i is ih =>
    intro j hj
    rcases mem_cons.mp hj with rfl | hj
    · intro hp
      apply h
      simp only [visitPrograms, show program partition (e.header j) e.wide partition.length = none from hp]
    · cases hp : part partition e i with
      | none =>
        simp only [visitPrograms, show program partition (e.header i) e.wide partition.length = none from hp,
          ne_eq, not_true_eq_false] at h
      | some r =>
        simp only [visitPrograms, show program partition (e.header i) e.wide partition.length = some r from hp]
          at h
        split at h
        · exact ih _ h j hj
        · exact ih _ h j hj

section

variable (hsize : 64 ≤ partition.length ∧ partition.length ≤ maxInput)
  (he : elfExtent partition partition.length = some e)

include hsize he

theorem inspectAbl_elf : inspectAbl lzma partition =
      (visitPrograms lzma partition e (range e.count) {}).elim .unknown Scan.result := by
  have hstop : ¬ partition.length < e.table.offset + e.table.size := by
    have := (elfExtent_iff.mp he).2.2.2.2.2.2.1
    simp only [Range.stop] at this
    omega
  simp only [inspectAbl, he, if_neg (show ¬ (partition.length < 64 ∨ maxInput < partition.length) by omega),
    if_neg hstop]
  cases visitPrograms lzma partition e (range e.count) {} <;> rfl

theorem conclusiveScan_iff : ConclusiveScan lzma partition ↔ inspectAbl lzma partition ≠ .unknown := by
  rw [inspectAbl_elf hsize he]
  constructor
  · rintro ⟨e', s, he', hs, hresult⟩
    obtain rfl : e' = e := some.inj (he'.symm.trans he)
    simpa only [hs, elim_some] using hresult
  · intro h
    cases hs : visitPrograms lzma partition e (range e.count) {} with
    | none => simp [hs] at h
    | some s => exact ⟨e, s, he, hs, by simpa only [hs, elim_some] using h⟩

end

theorem readAbl_status (sha256 : Bytes → String) (name : String)
    (hsize : 64 ≤ partition.length ∧ partition.length ≤ maxInput) {extent : Nat}
    (hextent : readExtent partition = some extent) (hle : extent ≤ partition.length) :
    (readAbl lzma sha256 partition name []).status = inspectAbl lzma (partition.take extent) := by
  simp only [readAbl, hextent, find?_nil,
    if_neg (show ¬ (partition.length < 64 ∨ maxInput < partition.length) by omega),
    if_neg (show ¬ maxInput < extent by omega)]

/-- Reading only the ELF extent reports what inspecting the whole partition
reports, except when an empty program header starts behind that extent:
`ReadAbl` does not read that far, and `InspectAbl` then rejects the header. -/
theorem readAbl_status_iff (lzma : Option Lzma) (sha256 : Bytes → String) (name : String) (partition : Bytes)
    (hsize : 64 ≤ partition.length ∧ partition.length ≤ maxInput) :
    (readAbl lzma sha256 partition name []).status = inspectAbl lzma partition ↔
      ¬ (DetachedEmptySegment partition ∧ ConclusiveScan lzma partition) := by
  cases he : elfExtent partition partition.length with
  | none =>
    have hextent : readExtent partition = some partition.length := by
      simp only [readExtent, elfExtent_header, he]
    rw [readAbl_status sha256 name hsize hextent le_rfl, take_length]
    simp [DetachedEmptySegment, he]
  | some e =>
    have hstop := (elfExtent_iff.mp he).2.2.2.2.2.2.1
    have hlen : (partition.take (max 64 e.table.stop)).length = max 64 e.table.stop :=
      length_take_of_le (by omega)
    have hread : readExtent partition = extentLoop (partition.take (max 64 e.table.stop)) e partition.length
        (range e.count) (max 64 e.table.stop) := by
      simp only [readExtent, elfExtent_header, he]
      change extentLoop (partition.take (max 64 e.table.stop)) e partition.length (range e.count)
        (partition.take (max 64 e.table.stop)).length = _
      rw [hlen]
    have hmem : ∀ i ∈ range e.count, i < e.count := fun i hi => mem_range.mp hi
    cases hx : extentLoop (partition.take (max 64 e.table.stop)) e partition.length
        (range e.count) (max 64 e.table.stop) with
    | none =>
      obtain ⟨i, hi, hnone⟩ := extentLoop_none he (le_max_right _ _) _ hmem _ hx
      have hvisit : visitPrograms lzma partition e (range e.count) {} = none := by
        by_contra h
        exact visitPrograms_ne_none _ _ h i hi hnone
      have hfull : inspectAbl lzma partition = .unknown := by
        simp only [inspectAbl_elf hsize he, hvisit, elim_none]
      have hstatus : (readAbl lzma sha256 partition name []).status = .unknown := by
        simp only [readAbl, hread, hx, ite_self]
      simp [hstatus, hfull, conclusiveScan_iff hsize he]
    | some extent =>
      obtain ⟨hstart, hall, hreach⟩ := extentLoop_some he (le_max_right _ _) _ hmem _ _ hx
      have hle : extent ≤ partition.length := by
        rcases hreach with rfl | ⟨i, -, r, hr, -, rfl⟩
        · omega
        · exact (program_iff.mp hr).2.2
      have hshort : (partition.take extent).length = extent := length_take_of_le hle
      have hpref : elfExtent (partition.take extent) (partition.take extent).length = some e := by
        exact elfExtent_take he (by omega) (by omega)
      rw [readAbl_status sha256 name hsize (hread.trans hx) hle]
      have hinspect : inspectAbl lzma (partition.take extent) = _ := inspectAbl_elf (by omega) hpref
      by_cases hout : ∃ i ∈ range e.count, ∃ r, part partition e i = some r ∧ extent < r.stop
      · have hdetached : DetachedEmptySegment partition := by
          obtain ⟨i, hi, r, hr, hbeyond⟩ := hout
          obtain ⟨r', hr', hin⟩ := hall i hi
          obtain rfl : r' = r := some.inj (hr'.symm.trans hr)
          have hzero : r'.size = 0 := by
            by_contra h
            exact absurd (hin h) (by omega)
          have hoffset : r'.stop = r'.offset := by simp only [Range.stop, hzero, Nat.add_zero]
          refine ⟨e, he, i, hmem i hi, r', hr, hzero, by omega, by omega, ?_⟩
          intro j hj q hq hne
          obtain ⟨q', hq', hin'⟩ := hall j (mem_range.mpr hj)
          obtain rfl : q' = q := some.inj (hq'.symm.trans hq)
          omega
        rw [hinspect, visitPrograms_beyond he (by omega) hle _ hmem hout]
        simp only [hdetached, true_and, conclusiveScan_iff hsize he, ne_eq, not_not, elim_none, eq_comm]
      · have hin : ∀ i ∈ range e.count, ∃ r, part partition e i = some r ∧ r.stop ≤ extent := by
          intro i hi
          obtain ⟨r, hr, -⟩ := hall i hi
          refine ⟨r, hr, ?_⟩
          by_contra h
          exact hout ⟨i, hi, r, hr, by omega⟩
        have hdetached : ¬ DetachedEmptySegment partition := by
          rintro ⟨e', he', i, hi, r, hr, hzero, h64, htable, hbefore⟩
          obtain rfl : e' = e := some.inj (he'.symm.trans he)
          obtain ⟨r', hr', hstop'⟩ := hin i (mem_range.mpr hi)
          obtain rfl : r' = r := some.inj (hr'.symm.trans hr)
          simp only [Range.stop] at hstop' htable
          rcases hreach with rfl | ⟨j, hj, q, hq, hne, rfl⟩
          · simp only [Range.stop] at hstop'
            omega
          · have := hbefore j (hmem j hj) q hq hne
            omega
        rw [hinspect, visitPrograms_prefix he (by omega) hle _ hmem hin, inspectAbl_elf hsize he]
        simp [hdetached]

/-- An ELF with one loadable ARM64 image and a second, empty program header
that points into the padding of its partition. -/
def paddedPartition : Bytes :=
  [0x7f, 0x45, 0x4c, 0x46, 1, 1] ++ replicate 22 0 ++ [64, 0, 0, 0] ++ replicate 10 0 ++
    [32, 0, 2, 0] ++ replicate 18 0 ++
  [1, 0, 0, 0, 128, 0, 0, 0] ++ replicate 8 0 ++ [240, 0, 0, 0] ++ replicate 12 0 ++
  [0, 0, 0, 0, 0x90, 1, 0, 0] ++ replicate 24 0 ++
  [0x4d, 0x5a] ++ replicate 58 0 ++ [64, 0, 0, 0] ++
    [0x50, 0x45, 0, 0, 0x64, 0xaa, 1, 0] ++ replicate 12 0 ++ [112, 0, 0, 0, 0x0b, 0x02] ++
    replicate 58 0 ++ [240, 0, 0, 0, 0, 0, 0, 0, 10, 0] ++ replicate 82 0 ++
  replicate 144 0

/-- No section of `paddedPartition` is compressed, so this is never asked. -/
def idleLzma : Lzma := ⟨fun _ => none, fun _ _ _ => ⟨false, .notSpecified, []⟩⟩

theorem paddedPartition_statuses : (64 ≤ paddedPartition.length ∧ paddedPartition.length ≤ maxInput) ∧
      (readAbl (some idleLzma) (fun _ => "") paddedPartition "abl_a" []).status = .unknown ∧
      inspectAbl (some idleLzma) paddedPartition = .noEfispLoader := by
  decide +kernel

theorem readAbl_status_iff_padded :
    DetachedEmptySegment paddedPartition ∧ ConclusiveScan (some idleLzma) paddedPartition := by
  obtain ⟨hsize, hread, hfull⟩ := paddedPartition_statuses
  have h := readAbl_status_iff (some idleLzma) (fun _ => "") "abl_a" paddedPartition hsize
  rw [hread, hfull] at h
  by_contra hnot
  exact absurd (h.mpr hnot) (by decide)

theorem readAbl_misses_empty_segment : 64 ≤ paddedPartition.length ∧ paddedPartition.length ≤ maxInput ∧
      (readAbl (some idleLzma) (fun _ => "") paddedPartition "abl_a" []).status ≠
        inspectAbl (some idleLzma) paddedPartition := by
  obtain ⟨hsize, hread, hfull⟩ := paddedPartition_statuses
  exact ⟨hsize.1, hsize.2, by rw [hread, hfull]; decide⟩

end AeraRecovery.Abl.Read
