import AeraRecovery.Abl.Regions

namespace AeraRecovery.Abl.Safety

open Lib Bytes Image Inspect Regions List

def Within (lzma : Option Lzma) : Prop :=
  ∀ decoder ∈ lzma, ∀ limit compressed props, (decoder.decode limit compressed props).output.length ≤ limit

/-- What the scan takes lies inside what it was found in, and no region is deeper than four levels. -/
def Inside (image : Bytes) : Event → Prop
  | .segment offset size => offset + size ≤ image.length
  | .region depth _ => depth ≤ 4
  | .image bytes offset size => offset + size ≤ bytes
  | .compressed bytes offset size => offset + size ≤ bytes
  | .output limit size => size ≤ limit

def visited : List Event → Nat
  | [] => 0
  | .region _ bytes :: log => bytes + visited log
  | _ :: log => visited log

def attempts : List Event → Nat
  | [] => 0
  | .compressed .. :: log => attempts log + 1
  | _ :: log => attempts log

/-- A state of the scan between two program headers, or after the one region of a PE image. -/
inductive Reached (lzma : Option Lzma) (image : Bytes) : Scan → Prop
  | elf (e : Elf) (k : Nat) (s : Scan) : elfExtent image image.length = some e →
    visitPrograms lzma image e (range k) {} = some s → Reached lzma image s
  | pe : Reached lzma image (visit lzma fuel 0 {} image)

variable {data : Bytes}

theorem peSections_le {table remaining i extent : Nat} (h : extent ≤ data.length) :
    peSections data table remaining i extent ≤ data.length := by
  induction remaining generalizing i extent with
  | zero => exact h
  | succ remaining ih =>
    rw [peSections]
    split
    · omega
    · exact ih (by omega)

theorem peSize_le (data : Bytes) : peSize data ≤ data.length := by
  rw [peSize]
  dsimp only
  split
  · omega
  split
  · omega
  split
  · omega
  split
  · omega
  · exact peSections_le (by omega)

theorem decodeSection_le {lzma : Lzma} (hlzma : Within (some lzma)) {compressed : Bytes} {headers : List Nat}
    {limit : Nat} {output : Bytes} (h : decodeSection lzma compressed headers = some (limit, output)) :
    output.length ≤ limit := by
  induction headers with
  | nil => exact nomatch h
  | cons header headers ih =>
    rw [decodeSection] at h
    dsimp only at h
    generalize (if header = 13 then le64 compressed 5 else 2 ^ 64 - 1) = declared at h
    generalize (if declared = 2 ^ 64 - 1 then maxDecoded else declared) = limit' at h
    split_ifs at h
    · exact ih h
    · exact ih h
    · exact ih h
    · cases h
      exact hlzma lzma rfl ..

structure Bounded (image : Bytes) (s : Scan) : Prop where
  inside : ∀ e ∈ s.log, Inside image e
  total : s.total = visited s.log
  total_le : s.total ≤ maxTotal
  attempts : attempts s.log = min 8 s.attempts

namespace Bounded

variable {image : Bytes} {s : Scan}

theorem start : Bounded image {} := ⟨nofun, rfl, by decide, rfl⟩

theorem refuse (h : Bounded image s) : Bounded image { s with exhausted := true } :=
  ⟨h.inside, h.total, h.total_le, h.attempts⟩

theorem enter (h : Bounded image s) {depth : Nat}
    (hlimit : ¬ (4 < depth ∨ 64 * 1024 * 1024 - s.total < data.length)) :
    Bounded image { s with total := s.total + data.length, log := .region depth data.length :: s.log } where
  inside := forall_mem_cons.mpr ⟨Nat.le_of_not_lt fun hdepth => hlimit (.inl hdepth), h.inside⟩
  total := by rw [visited, h.total, Nat.add_comm]
  total_le := by
    have := h.total_le
    simp only [maxTotal] at *
    omega
  attempts := h.attempts

theorem scanImage (h : Bounded image s) (data : Bytes) (i : Nat) : Bounded image (Inspect.scanImage data s i) := by
  have hle := peSize_le (data.drop i)
  rw [Inspect.scanImage]
  dsimp only
  split
  · exact h
  split
  · exact h
  · rw [length_drop] at hle
    refine ⟨forall_mem_cons.mpr ⟨?_, h.inside⟩, h.total, h.total_le, h.attempts⟩
    simp only [Inside]
    omega

theorem foldl_scanImage (h : Bounded image s) (data : Bytes) (is : List Nat) :
    Bounded image (is.foldl (Inspect.scanImage data) s) := by
  induction is generalizing s with
  | nil => exact h
  | cons i is ih => exact ih (h.scanImage data i)

theorem attempt (h : Bounded image s) {bytes offset size : Nat} (hin : offset + size ≤ bytes)
    (hmore : ¬ 8 < s.attempts + 1) : Bounded image
      { s with attempts := s.attempts + 1, log := .compressed bytes offset size :: s.log } where
  inside := forall_mem_cons.mpr ⟨hin, h.inside⟩
  total := h.total
  total_le := h.total_le
  attempts := by
    have := h.attempts
    rw [Safety.attempts]
    dsimp only
    omega

theorem output (h : Bounded image s) {limit size : Nat} (hle : size ≤ limit) :
    Bounded image { s with log := .output limit size :: s.log } :=
  ⟨forall_mem_cons.mpr ⟨hle, h.inside⟩, h.total, h.total_le, h.attempts⟩

theorem visitSections {lzma : Lzma} (hlzma : Within (some lzma)) {nested : Scan → Bytes → Scan}
    (hnested : ∀ s output, Bounded image s → Bounded image (nested s output)) (data : Bytes)
    (positions : List Nat) (h : Bounded image s) :
    Bounded image (Inspect.visitSections lzma nested data positions s) := by
  induction positions generalizing s with
  | nil => exact h
  | cons pos rest ih =>
    rw [Inspect.visitSections]
    dsimp only
    split_ifs with hguid hbad hmore hshort
    · exact ih h
    · exact ih h.refuse
    · refine ⟨h.inside, h.total, h.total_le, h.attempts.trans ?_⟩
      dsimp only
      omega
    · exact ih (h.attempt (by omega) hmore).refuse
    · have hs : Bounded image { s with
          attempts := s.attempts + 1
          log := .compressed data.length (pos - 4 + le16 data (pos + 16)) (byte data (pos - 4) +
            byte data (pos - 4 + 1) * 2 ^ 8 + byte data (pos - 4 + 2) * 2 ^ 16 - le16 data (pos + 16)) :: s.log } :=
        h.attempt (by omega) hmore
      split
      · exact ih hs.refuse
      · split_ifs
        · exact ih hs.refuse
        · split
          · exact ih hs.refuse
          · exact ih (hnested _ _ (hs.output (decodeSection_le hlzma ‹_›)))

variable {lzma : Option Lzma}

theorem visit (hlzma : Within lzma) (fuel : Nat) {depth : Nat} (h : Bounded image s) :
    Bounded image (Inspect.visit lzma fuel depth s data) := by
  induction fuel generalizing depth s data with
  | zero => exact h.refuse
  | succ fuel ih =>
    rw [Inspect.visit]
    split_ifs with hlimit
    · exact h.refuse
    · have hs := (h.enter hlimit).foldl_scanImage data (range (data.length - 63))
      cases lzma with
      | none => exact hs
      | some decoder => exact visitSections hlzma (fun s output h => ih h) data _ hs

theorem segment (h : Bounded image s) {offset size : Nat} (hstop : offset + size ≤ image.length) :
    Bounded image { s with log := .segment offset size :: s.log } :=
  ⟨forall_mem_cons.mpr ⟨hstop, h.inside⟩, h.total, h.total_le, h.attempts⟩

theorem visitPrograms (hlzma : Within lzma) {e : Elf} {is : List Nat} {s' : Scan} (h : Bounded image s)
    (hs' : Inspect.visitPrograms lzma image e is s = some s') : Bounded image s' := by
  induction is generalizing s with
  | nil =>
    cases hs'
    exact h
  | cons i is ih =>
    rw [Inspect.visitPrograms] at hs'
    cases hpart : program image (e.header i) e.wide image.length with
    | none => simp [hpart] at hs'
    | some part =>
      simp only [hpart] at hs'
      split_ifs at hs'
      · exact ih ((h.segment (program_iff.mp hpart).2.2).visit hlzma _) hs'
      · exact ih h hs'

theorem of_reached (hlzma : Within lzma) (h : Reached lzma image s) : Bounded image s := by
  cases h with
  | elf e k s he hs => exact start.visitPrograms hlzma hs
  | pe => exact start.visit hlzma _

end Bounded

variable {lzma : Option Lzma}

theorem visit_deep {depth : Nat} (fuel : Nat) (hdepth : 4 < depth) :
    visit lzma fuel depth = fun s _ => { s with exhausted := true } := by
  funext s data
  cases fuel with
  | zero => rfl
  | succ fuel => exact if_pos (.inl hdepth)

/-- The depth check leaves fuel over, so that more of it changes nothing. -/
theorem visit_fuel {fuel fuel' depth : Nat} (h : 6 ≤ fuel + depth) (h' : 6 ≤ fuel' + depth) :
    visit lzma fuel depth = visit lzma fuel' depth := by
  induction fuel generalizing fuel' depth with
  | zero => rw [visit_deep 0 (by omega), visit_deep fuel' (by omega)]
  | succ fuel ih =>
    by_cases hdepth : 4 < depth
    · rw [visit_deep _ hdepth, visit_deep _ hdepth]
    · obtain ⟨fuel', rfl⟩ : ∃ n, fuel' = n + 1 := ⟨fuel' - 1, by omega⟩
      have hnested : visit lzma fuel (depth + 1) = visit lzma fuel' (depth + 1) := ih (by omega) (by omega)
      funext s data
      rw [visit, visit, hnested]

theorem inspectAbl_regions (image : Bytes) :
    (allRegions lzma image = none → inspectAbl lzma image = .unknown) ∧
      ∀ l, allRegions lzma image = some l → ∃ best, Decides (l.flatMap images) best (inspectAbl lzma image) := by
  rw [allRegions, roots, inspectAbl]
  split
  · exact ⟨fun _ => rfl, nofun⟩
  cases he : elfExtent image image.length with
  | some e =>
    have htable : ¬ image.length < e.table.offset + e.table.size :=
      Nat.not_lt_of_le (elfExtent_iff.mp he).2.2.2.2.2.2.1
    simp only [if_neg htable]
    obtain ⟨hnone, hsome⟩ : _ ∧ _ := visitPrograms_roots (s := {}) image e (range e.count)
    cases hroots : collect (segment image e) (range e.count) with
    | none =>
      rw [hnone hroots]
      exact ⟨fun _ => rfl, nofun⟩
    | some rs =>
      obtain ⟨s', hs', hcovers⟩ := hsome rs hroots
      rw [hs']
      exact hcovers.answer
  | none =>
    dsimp only
    split
    · have hcovers : Covers [image].length (collect (regions lzma 5) [image]) {} (visit lzma fuel 0 {} image) :=
        (covers_visit (show 5 + 0 = 5 from rfl)).trans .refl
      exact hcovers.answer
    · exact ⟨fun _ => rfl, nofun⟩

/-- The scan ends: more fuel changes nothing. In every state it reaches, each segment, PE image, compressed section and
output lies inside what it was found in, at most 64 MiB have been visited, at depth 4 at most, and at most eight sections
were decoded. The answer is unknown if a program header is rejected, if a section at any depth is malformed or does not
decode, or if the regions exceed one of the limits, and else that of the first of the largest images in their order. -/
theorem inspectAbl_safe {lzma : Option Lzma} (hlzma : Within lzma) (image : Bytes) :
    (∀ n, fuel ≤ n → visit lzma n 0 = visit lzma fuel 0) ∧
      (∀ s, Reached lzma image s → (∀ e ∈ s.log, Inside image e) ∧ s.total = visited s.log ∧
        s.total ≤ 64 * 1024 * 1024 ∧ attempts s.log ≤ 8 ∧ attempts s.log ≤ s.attempts) ∧
      (allRegions lzma image = none → inspectAbl lzma image = .unknown) ∧
      ∀ l, allRegions lzma image = some l → ∃ best, Decides (l.flatMap images) best (inspectAbl lzma image) := by
  refine ⟨fun n hn => visit_fuel hn (le_refl 6), fun s hs => ?_, inspectAbl_regions image⟩
  have h := Bounded.of_reached hlzma hs
  refine ⟨h.inside, h.total, h.total_le, ?_, ?_⟩
  · exact h.attempts.trans_le (min_le_left ..)
  · exact h.attempts.trans_le (min_le_right ..)

def loaderImage : Bytes :=
  [0x4d, 0x5a] ++ replicate 58 0 ++ [64, 0, 0, 0] ++ [0x50, 0x45, 0, 0, 0x64, 0xaa, 1, 0] ++
    replicate 12 0 ++ [112, 0, 0, 0, 0x0b, 0x02] ++ replicate 58 0 ++ [252, 0, 0, 0, 0, 0, 0, 0, 10, 0] ++
    replicate 82 0 ++ needle

def nestedImage : Bytes :=
  [0x4d, 0x5a] ++ [0x21, 1, 0, 2] ++ guid ++ [24, 0, 1, 0] ++ [0x5d, 0, 0, 1, 0] ++ [252, 0, 0, 0, 0, 0, 0, 0] ++
    loaderImage

def storedLzma : Lzma := ⟨fun _ => some 65536, fun limit data _ => ⟨true, .finishedWithMark, data.take limit⟩⟩

theorem within_storedLzma : Within (some storedLzma) := by
  rintro _ ⟨⟩ limit compressed props
  exact length_take_le ..

theorem inspectAbl_safe_nested : allRegions (some storedLzma) nestedImage = some [nestedImage, loaderImage] ∧
    (∃ best, Decides ([nestedImage, loaderImage].flatMap images) best (inspectAbl (some storedLzma) nestedImage)) ∧
    inspectAbl (some storedLzma) nestedImage = .efispLoader := by
  have hregions : allRegions (some storedLzma) nestedImage = some [nestedImage, loaderImage] := by decide +kernel
  exact ⟨hregions, (inspectAbl_safe within_storedLzma nestedImage).2.2.2 _ hregions, by decide +kernel⟩

end AeraRecovery.Abl.Safety
