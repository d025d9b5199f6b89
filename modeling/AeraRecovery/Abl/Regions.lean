import AeraRecovery.Abl.Inspect

namespace AeraRecovery.Abl.Regions

open Lib Bytes Image Inspect List

def maxTotal : Nat := 64 * 1024 * 1024

section

variable (data : Bytes) (pos : Nat)

/-- The size a section gives for itself, its GUID being at `pos`. -/
def sectionSize : Nat := byte data (pos - 4) + byte data (pos - 4 + 1) * 2 ^ 8 + byte data (pos - 4 + 2) * 2 ^ 16

def dataOffset : Nat := le16 data (pos + 16)

/-- A GUID-defined section that ends inside the data, with at least six bytes behind its header. -/
def WellFormed : Prop :=
  byte data (pos - 4 + 3) = 2 ∧ 24 ≤ dataOffset data pos ∧ dataOffset data pos + 6 ≤ sectionSize data pos ∧
    pos - 4 + sectionSize data pos ≤ data.length

instance : Decidable (WellFormed data pos) := inferInstanceAs (Decidable (_ ∧ _))

def compressed : Bytes :=
  slice data (pos - 4 + dataOffset data pos) (sectionSize data pos - dataOffset data pos)

/-- What a section expands to: nothing if it is malformed, asks for too large a dictionary or does not
decode. -/
def decoded (lzma : Lzma) : Option Bytes :=
  if WellFormed data pos ∧ ∃ size ∈ lzma.dicSize ((compressed data pos).take 5), size ≤ maxDecoded then
    (decodeSection lzma (compressed data pos) [13, 5]).map Prod.snd
  else none

end

def join (first rest : Option (List Bytes)) : Option (List Bytes) :=
  first.bind fun l => rest.map (l ++ ·)

def collect {α : Type} (f : α → Option (List Bytes)) : List α → Option (List Bytes)
  | [] => some []
  | x :: xs => join (f x) (collect f xs)

def inner (lzma : Lzma) (nested : Bytes → Option (List Bytes)) (data : Bytes) (pos : Nat) : Option (List Bytes) :=
  if slice data pos 16 = guid then (decoded data pos lzma).bind nested else some []

/-- The data and all that its sections expand to, in the order of the scan. There are none if a section
at any level is malformed or does not decode, or if they are nested in more than `levels` levels. -/
def regions (lzma : Option Lzma) : Nat → Bytes → Option (List Bytes)
  | 0, _ => none
  | levels + 1, data =>
    join (some [data]) (match lzma with
      | none => some []
      | some decoder => collect (inner decoder (regions lzma levels) data) (range' 4 (data.length - 23)))

def segment (image : Bytes) (e : Elf) (i : Nat) : Option (List Bytes) :=
  (program image (e.header i) e.wide image.length).map fun part =>
    if le32 image (e.header i) = 1 ∧ part.size ≠ 0 then [slice image part.offset part.size] else []

/-- The regions at depth 0: the loadable segments of an ELF image, or all of a PE image. -/
def roots (image : Bytes) : Option (List Bytes) :=
  if image.length < 64 ∨ maxInput < image.length then none
  else match elfExtent image image.length with
    | some e => collect (segment image e) (range e.count)
    | none => if byte image 0 = 0x4d ∧ byte image 1 = 0x5a then some [image] else none

def bytes (l : List Bytes) : Nat := (l.map length).sum

/-- All regions of an image, down to depth 4. There are none if they hold more than 64 MiB or if more
than eight of them come out of sections. -/
def allRegions (lzma : Option Lzma) (image : Bytes) : Option (List Bytes) :=
  (roots image).bind fun rs => (collect (regions lzma 5) rs).bind fun l =>
    if bytes l ≤ maxTotal ∧ l.length ≤ rs.length + 8 then some l else none

/-- The PE image at a position: its size, and whether the partition name is in it. -/
def imageAt (data : Bytes) (i : Nat) : Option (Nat × Bool) :=
  if byte data i = 0x4d ∧ byte data (i + 1) = 0x5a ∧ 0 < peSize (data.drop i) then
    some (peSize (data.drop i), decide (needle <:+: slice data i (peSize (data.drop i))))
  else none

def images (data : Bytes) : List (Nat × Bool) := (range (data.length - 63)).filterMap (imageAt data)

def verdict (present : Bool) : AblStatus := if present then .efispLoader else .noEfispLoader

/-- The status is the verdict on the first of the largest images. -/
def Decides (found : List (Nat × Bool)) (best : Nat) (status : AblStatus) : Prop :=
  found = [] ∧ best = 0 ∧ status = .unknown ∨
    ∃ before x after, found = before ++ x :: after ∧ (∀ y ∈ before, y.1 < x.1) ∧ (∀ y ∈ after, y.1 ≤ x.1) ∧
      best = x.1 ∧ status = verdict x.2

section

variable {found : List (Nat × Bool)} {best : Nat} {status : AblStatus} (h : Decides found best status)

include h

theorem Decides.le : ∀ y ∈ found, y.1 ≤ best := by
  rcases h with ⟨rfl, -, -⟩ | ⟨before, x, after, rfl, hbefore, hafter, rfl, -⟩
  · simp
  · intro y hy
    rcases mem_append.mp hy with hy | hy
    · exact (hbefore y hy).le
    · rcases mem_cons.mp hy with rfl | hy
      · exact le_rfl
      · exact hafter y hy

theorem Decides.snoc {size : Nat} {present : Bool} (hsize : 0 < size) :
    Decides (found ++ [(size, present)]) (if size ≤ best then best else size)
      (if size ≤ best then status else verdict present) := by
  by_cases hle : size ≤ best
  · rw [if_pos hle, if_pos hle]
    rcases h with ⟨rfl, rfl, -⟩ | ⟨before, x, after, rfl, hbefore, hafter, rfl, rfl⟩
    · omega
    · refine .inr ⟨before, x, after ++ [(size, present)], by simp, hbefore, ?_, rfl, rfl⟩
      intro y hy
      rcases mem_append.mp hy with hy | hy
      · exact hafter y hy
      · rw [mem_singleton.mp hy]
        exact hle
  · rw [if_neg hle, if_neg hle]
    refine .inr ⟨found, (size, present), [], rfl, fun y hy => ?_, by simp, rfl, rfl⟩
    have := h.le y hy
    omega

end

section

variable {a b : Option (List Bytes)} {l : List Bytes}

theorem join_eq_some : join a b = some l ↔ ∃ l₁ l₂, a = some l₁ ∧ b = some l₂ ∧ l = l₁ ++ l₂ := by
  cases a <;> cases b <;> simp [join, eq_comm]

@[simp]
theorem join_nil : join (some []) b = b := by cases b <;> rfl

@[simp]
theorem bytes_append (l₁ l₂ : List Bytes) : bytes (l₁ ++ l₂) = bytes l₁ + bytes l₂ := by simp [bytes]

@[simp]
theorem bytes_singleton (data : Bytes) : bytes [data] = data.length := by simp [bytes]

end

/-- The scan before it has hit a limit. -/
def Clear (s : Scan) : Prop := s.exhausted = false ∧ s.total ≤ maxTotal ∧ s.attempts ≤ 8

def Fits (roots : Nat) (l : List Bytes) (s : Scan) : Prop :=
  s.total + bytes l ≤ maxTotal ∧ s.attempts + l.length ≤ 8 + roots

/-- Between the two states the scan has gone through these regions. All but `roots` of them come out of
sections. -/
def Reads (roots : Nat) (l : List Bytes) (s s' : Scan) : Prop :=
  Fits roots l s ∧ s'.total = s.total + bytes l ∧ s'.attempts + roots = s.attempts + l.length ∧
    ∀ found, Decides found s.best s.status → Decides (found ++ l.flatMap images) s'.best s'.status

/-- The scan goes through exactly these regions, and is exhausted if there are none or they do not fit. -/
structure Covers (roots : Nat) (found : Option (List Bytes)) (s s' : Scan) : Prop where
  sticky : s.exhausted = true → s'.exhausted = true
  clear : Clear s → s'.exhausted = false → ∃ l, found = some l ∧ Reads roots l s s'
  complete : Clear s → ∀ l, found = some l → Fits roots l s → s'.exhausted = false
  roots_le : ∀ l, found = some l → roots ≤ l.length

namespace Covers

variable {s s' s'' : Scan} {r r' : Nat} {found found' : Option (List Bytes)}

theorem refl : Covers 0 (some []) s s where
  sticky h := h
  clear hs _ := ⟨[], rfl, ⟨hs.2.1, hs.2.2⟩, rfl, rfl, fun found h => by simpa using h⟩
  complete hs _ _ _ := hs.1
  roots_le _ _ := Nat.zero_le _

theorem of_exhausted (h : s'.exhausted = true) : Covers r none s s' where
  sticky _ := h
  clear _ h' := by simp [h] at h'
  complete _ _ h := nomatch h
  roots_le _ h := nomatch h

theorem clear_after {l : List Bytes} (h : Reads r l s s') (he : s'.exhausted = false) : Clear s' := by
  obtain ⟨⟨htotal, hattempts⟩, htotal', hattempts', -⟩ := h
  exact ⟨he, by omega, by omega⟩

theorem trans (h : Covers r found s s') (h' : Covers r' found' s' s'') :
    Covers (r + r') (join found found') s s'' where
  sticky he := h'.sticky (h.sticky he)
  clear hs he := by
    have he' : s'.exhausted = false := by
      by_contra hne
      simp [h'.sticky (by simpa using hne)] at he
    obtain ⟨l, rfl, hl⟩ := h.clear hs he'
    obtain ⟨l', rfl, hl'⟩ := h'.clear (clear_after hl he') he
    refine ⟨l ++ l', rfl, ?_⟩
    obtain ⟨-, htotal, hattempts, hdecides⟩ := hl
    obtain ⟨⟨hfits, hfits'⟩, htotal', hattempts', hdecides'⟩ := hl'
    simp only [Reads, Fits, bytes_append, length_append, flatMap_append, ← append_assoc]
    exact ⟨⟨by omega, by omega⟩, by omega, by omega, fun found hf => hdecides' _ (hdecides _ hf)⟩
  complete hs l hl hfits := by
    obtain ⟨l₁, l₂, rfl, rfl, rfl⟩ := join_eq_some.mp hl
    have hle := h'.roots_le _ rfl
    simp only [Fits, bytes_append, length_append] at hfits
    have he := h.complete hs l₁ rfl ⟨by omega, by omega⟩
    obtain ⟨_, ⟨⟩, hreads⟩ := h.clear hs he
    refine h'.complete (clear_after hreads he) l₂ rfl ?_
    obtain ⟨-, htotal, hattempts, -⟩ := hreads
    exact ⟨by omega, by omega⟩
  roots_le l hl := by
    obtain ⟨l₁, l₂, rfl, rfl, rfl⟩ := join_eq_some.mp hl
    have := h.roots_le _ rfl
    have := h'.roots_le _ rfl
    rw [length_append]
    omega

theorem of_log {log : List Event} (h : Covers r found { s with log := log } s') : Covers r found s s' :=
  ⟨h.sticky, h.clear, h.complete, h.roots_le⟩

/-- A section's attempt is counted before the region it expands to is entered. -/
theorem attempt {log : List Event} (hmore : ¬ 8 < s.attempts + 1)
    (h : Covers 1 found { s with attempts := s.attempts + 1, log := log } s') : Covers 0 found s s' where
  sticky := h.sticky
  clear hs he := by
    obtain ⟨l, hl, ⟨htotal, hattempts⟩, htotal', hattempts', hdecides⟩ :=
      h.clear ⟨hs.1, hs.2.1, Nat.le_of_not_lt hmore⟩ he
    dsimp only at htotal hattempts htotal' hattempts'
    exact ⟨l, hl, ⟨htotal, by omega⟩, htotal', by omega, hdecides⟩
  complete hs l hl hfits := h.complete ⟨hs.1, hs.2.1, Nat.le_of_not_lt hmore⟩ l hl ⟨hfits.1, by
    have := hfits.2
    dsimp only
    omega⟩
  roots_le _ _ := Nat.zero_le _

end Covers

variable {data : Bytes} {s : Scan}

theorem scanImage_found {i : Nat} {x : Nat × Bool} (h : imageAt data i = some x) :
    (scanImage data s i).best = (if x.1 ≤ s.best then s.best else x.1) ∧
      (scanImage data s i).status = (if x.1 ≤ s.best then s.status else verdict x.2) ∧ 0 < x.1 := by
  rw [imageAt, Option.ite_none_right_eq_some] at h
  obtain ⟨⟨hm, hz, hsize⟩, ⟨⟩⟩ := h
  rw [scanImage, if_neg (by simp [hm, hz])]
  by_cases hle : peSize (data.drop i) ≤ s.best
  · simp only [if_pos hle, hsize, and_self]
  · simp only [if_neg hle, verdict, decide_eq_true_eq, hsize, and_self]

theorem scanImage_skip {i : Nat} (h : imageAt data i = none) : scanImage data s i = s := by
  rw [imageAt, ite_eq_right_iff] at h
  rw [scanImage]
  split
  · rfl
  · refine if_pos ?_
    by_contra hlt
    exact nomatch h ⟨by tauto, by tauto, by omega⟩

theorem scanImage_rest (data : Bytes) (s : Scan) (i : Nat) : (scanImage data s i).exhausted = s.exhausted ∧
    (scanImage data s i).total = s.total ∧ (scanImage data s i).attempts = s.attempts := by
  rw [scanImage]
  dsimp only
  split_ifs <;> exact ⟨rfl, rfl, rfl⟩

theorem foldl_scanImage (data : Bytes) (s : Scan) (is : List Nat) :
    (is.foldl (scanImage data) s).exhausted = s.exhausted ∧
    (is.foldl (scanImage data) s).total = s.total ∧ (is.foldl (scanImage data) s).attempts = s.attempts ∧
    ∀ found, Decides found s.best s.status → Decides (found ++ is.filterMap (imageAt data))
      (is.foldl (scanImage data) s).best (is.foldl (scanImage data) s).status := by
  induction is generalizing s with
  | nil => exact ⟨rfl, rfl, rfl, fun found h => by simpa using h⟩
  | cons i is ih =>
    obtain ⟨hexhausted, htotal, hattempts, hdecides⟩ := ih (scanImage data s i)
    obtain ⟨hexhausted', htotal', hattempts'⟩ := scanImage_rest data s i
    refine ⟨hexhausted.trans hexhausted', htotal.trans htotal', hattempts.trans hattempts', fun found h => ?_⟩
    cases hi : imageAt data i with
    | none =>
      rw [filterMap_cons_none hi]
      exact hdecides found (by rwa [scanImage_skip hi])
    | some x =>
      obtain ⟨hbest, hstatus, hsize⟩ := scanImage_found (s := s) hi
      rw [filterMap_cons_some hi, append_cons]
      exact hdecides _ (by rw [hbest, hstatus]; exact h.snoc hsize)

/-- Entering a region counts its bytes and looks for PE images in it. -/
theorem covers_enter (depth : Nat) (htotal : ¬ maxTotal - s.total < data.length) :
    Covers 1 (some [data]) s ((range (data.length - 63)).foldl (scanImage data)
      { s with total := s.total + data.length, log := .region depth data.length :: s.log }) := by
  obtain ⟨hexhausted, htotal', hattempts, hdecides⟩ := foldl_scanImage data
    { s with total := s.total + data.length, log := .region depth data.length :: s.log } (range (data.length - 63))
  refine ⟨fun h => hexhausted.trans h, fun hs _ => ?_, fun hs _ _ _ => hexhausted.trans hs.1, ?_⟩
  · refine ⟨[data], rfl, ⟨?_, Nat.add_le_add_right hs.2.2 1⟩, ?_, ?_, ?_⟩
    · have := hs.2.1
      rw [bytes_singleton]
      omega
    · simpa using htotal'
    · simpa using hattempts
    · simpa [images] using hdecides
  · rintro _ ⟨⟩
    exact le_rfl

theorem decoded_none {lzma : Lzma} {pos : Nat} (h : ¬ WellFormed data pos) : decoded data pos lzma = none :=
  if_neg fun h' => h h'.1

section

variable {lzma : Lzma} {nested : Scan → Bytes → Scan} {f : Bytes → Option (List Bytes)}

theorem covers_visitSections (hnested : ∀ s output, Covers 1 (f output) s (nested s output)) (positions : List Nat) :
    Covers 0 (collect (inner lzma f data) positions) s (visitSections lzma nested data positions s) := by
  induction positions generalizing s with
  | nil => exact .refl
  | cons pos rest ih =>
    -- a refused section gives no region, and the exhausted flag stays set over the rest of the loop
    have hrefused {s' : Scan} (hguid : slice data pos 16 = guid) (hnone : decoded data pos lzma = none)
        (hs' : s'.exhausted = true) :
        Covers 0 (collect (inner lzma f data) (pos :: rest)) s (visitSections lzma nested data rest s') := by
      rw [collect, inner, if_pos hguid, hnone]
      exact .of_exhausted (ih.sticky hs')
    rw [visitSections]
    dsimp only
    split_ifs with hguid hbad hmore hshort
    · rw [collect, inner, if_neg hguid, join_nil]
      exact ih
    · refine hrefused (not_not.mp hguid) (decoded_none fun h => ?_) rfl
      simp only [WellFormed, dataOffset, sectionSize] at h
      omega
    · refine ⟨fun _ => rfl, fun _ h => (nomatch h), fun hs l hl hfits => ?_, fun _ _ => Nat.zero_le _⟩
      rw [collect, inner, if_pos (not_not.mp hguid)] at hl
      obtain ⟨l₁, l₂, hl₁, -, rfl⟩ := join_eq_some.mp hl
      obtain ⟨output, -, houtput⟩ := Option.bind_eq_some_iff.mp hl₁
      have hpos := (hnested s output).roots_le l₁ houtput
      have := hfits.2
      rw [length_append] at this
      omega
    · refine hrefused (not_not.mp hguid) (decoded_none fun h => ?_) rfl
      simp only [WellFormed, dataOffset, sectionSize] at h
      omega
    · have hwell : WellFormed data pos := by
        unfold WellFormed dataOffset sectionSize
        omega
      split
      · rename_i hdic
        refine hrefused (not_not.mp hguid) (if_neg ?_) rfl
        rintro ⟨-, size, hsize, -⟩
        cases hdic.symm.trans hsize
      · rename_i size hdic
        split_ifs with hlarge
        · refine hrefused (not_not.mp hguid) (if_neg ?_) rfl
          rintro ⟨-, _, hsize, hle⟩
          cases hdic.symm.trans hsize
          exact absurd hle (Nat.not_le_of_lt hlarge)
        · have hdecoded : decoded data pos lzma =
              (decodeSection lzma (compressed data pos) [13, 5]).map Prod.snd :=
            if_pos ⟨hwell, size, hdic, Nat.le_of_not_lt hlarge⟩
          split
          · rename_i hnone
            exact hrefused (not_not.mp hguid) (hdecoded.trans (by
              rw [show decodeSection lzma (compressed data pos) [13, 5] = none from hnone]; rfl)) rfl
          · rename_i limit output hsome
            have hinner : inner lzma f data pos = f output := by
              rw [inner, if_pos (not_not.mp hguid), hdecoded,
                show decodeSection lzma (compressed data pos) [13, 5] = some (limit, output) from hsome]
              rfl
            rw [collect, hinner]
            exact (Covers.attempt hmore (hnested _ output)).trans ih

end

variable {lzma : Option Lzma}

theorem covers_visit {fuel depth : Nat} (hfuel : fuel + depth = 5) :
    Covers 1 (regions lzma fuel data) s (visit lzma (fuel + 1) depth s data) := by
  induction fuel generalizing depth s data with
  | zero =>
    rw [visit, if_pos (.inl (by omega))]
    exact .of_exhausted rfl
  | succ fuel ih =>
    rw [visit, regions.eq_def]
    dsimp only
    split_ifs with hlimit
    · -- the depth is within its limit, so the region does not fit
      refine ⟨fun _ => rfl, fun _ h => (nomatch h), fun hs l hl hfits => ?_, fun l hl => ?_⟩
      · obtain ⟨_, l₂, ⟨⟩, -, rfl⟩ := join_eq_some.mp hl
        have htotal := hfits.1
        rw [bytes_append, bytes_singleton, maxTotal] at htotal
        omega
      · obtain ⟨_, l₂, ⟨⟩, -, rfl⟩ := join_eq_some.mp hl
        simp
    · have henter := covers_enter depth fun h => hlimit (.inr h)
      cases lzma with
      | none => exact henter.trans .refl
      | some decoder => exact henter.trans (covers_visitSections (fun s output => ih (by omega)) _)

theorem visitPrograms_roots (image : Bytes) (e : Elf) (is : List Nat) :
    (collect (segment image e) is = none → visitPrograms lzma image e is s = none) ∧
      ∀ rs, collect (segment image e) is = some rs → ∃ s', visitPrograms lzma image e is s = some s' ∧
        Covers rs.length (collect (regions lzma 5) rs) s s' := by
  induction is generalizing s with
  | nil =>
    refine ⟨nofun, ?_⟩
    rintro _ ⟨⟩
    exact ⟨s, rfl, .refl⟩
  | cons i is ih =>
    rw [collect, segment, visitPrograms]
    cases program image (e.header i) e.wide image.length with
    | none => exact ⟨fun _ => rfl, nofun⟩
    | some part =>
      dsimp only [Option.map_some]
      split_ifs with hload
      · set data := slice image part.offset part.size
        set s₁ : Scan := { s with log := .segment part.offset part.size :: s.log }
        obtain ⟨hnone, hsome⟩ := ih (s := visit lzma fuel 0 s₁ data)
        refine ⟨fun h => hnone ?_, fun rs hrs => ?_⟩
        · cases hrest : collect (segment image e) is with
          | none => rfl
          | some l => simp [hrest, join] at h
        · obtain ⟨_, rs', ⟨⟩, hrest, rfl⟩ := join_eq_some.mp hrs
          obtain ⟨s', hs', hcovers⟩ := hsome rs' hrest
          refine ⟨s', hs', ?_⟩
          have hvisit : Covers 1 (regions lzma 5 data) s (visit lzma fuel 0 s₁ data) :=
            .of_log (covers_visit (show 5 + 0 = 5 from rfl))
          rw [length_append]
          exact hvisit.trans hcovers
      · rw [join_nil]
        exact ih

/-- The answer of a scan that covers the regions from its start. -/
theorem Covers.answer {rs : List Bytes} {s' : Scan} (h : Covers rs.length (collect (regions lzma 5) rs) {} s') :
    (((collect (regions lzma 5) rs).bind fun l =>
        if bytes l ≤ maxTotal ∧ l.length ≤ rs.length + 8 then some l else none) = none → s'.result = .unknown) ∧
      ∀ l, ((collect (regions lzma 5) rs).bind fun l =>
        if bytes l ≤ maxTotal ∧ l.length ≤ rs.length + 8 then some l else none) = some l →
        ∃ best, Decides (l.flatMap images) best s'.result := by
  have hclear : Clear {} := ⟨rfl, Nat.zero_le _, Nat.zero_le _⟩
  rw [Scan.result]
  constructor
  · intro hnone
    split
    · rfl
    · rename_i he
      obtain ⟨l, hl, ⟨htotal, hattempts⟩, -⟩ := h.clear hclear (by simpa using he)
      rw [hl, Option.bind_some, ite_eq_right_iff] at hnone
      dsimp only at htotal hattempts
      exact nomatch hnone ⟨by omega, by omega⟩
  · intro l hl
    obtain ⟨l', hl', hfits⟩ := Option.bind_eq_some_iff.mp hl
    rw [Option.ite_none_right_eq_some] at hfits
    obtain ⟨⟨htotal, hattempts⟩, ⟨⟩⟩ := hfits
    have he := h.complete hclear l hl' ⟨by dsimp only; omega, by dsimp only; omega⟩
    obtain ⟨_, hl'', -, -, -, hdecides⟩ := h.clear hclear he
    cases hl'.symm.trans hl''
    rw [he]
    exact ⟨s'.best, by simpa using hdecides [] (.inl ⟨rfl, rfl, rfl⟩)⟩

end AeraRecovery.Abl.Regions
