import AeraRecovery.Lib.LittleEndian
import AeraRecovery.Lib.Words

namespace AeraRecovery.Payload.FirmwareArb

open Lib Bytes Words List
open LittleEndian (bytes)

structure Arb where
  available : Bool
  index : Nat
  detail : String
  deriving DecidableEq

def unsupported : Arb := ⟨false, 0, "Unsupported Qualcomm OEM metadata"⟩

def conflicting : Arb := ⟨false, 0, "Conflicting OEM indices in xbl_config"⟩

def reported (index : Nat) : Arb := ⟨true, index, "Qualcomm OEM metadata in xbl_config; package value only"⟩

def number (image : Bytes) (pos n : Nat) : Nat := LittleEndian.value (slice image pos n)

/-- `Little`. There is no result for bytes outside of the vector. -/
def little (image : Bytes) (pos n : Nat) : Option Nat :=
  if pos + n ≤ image.length then some (number image pos n) else none

section

variable (ar : Arithmetic) (image : Bytes)

/-- The index in the OEM metadata of a header, after the checks of the header's own fields. -/
def metadataIndex (size j h common qti oem hashes : Nat) : Option (Option Nat) := do
  let left ← ar.sub size j
  let body ← ar.add (← ar.add (← ar.add 36 common) qti) oem
  if body > left then return none
  else if hashes > (← ar.sub left body) then return none
  else
    let md ← ar.add (← ar.add (← ar.add h 36) common) qti
    let major ← little image md 4
    let minor ← little image (← ar.add md 4) 4
    let arb ← little image (← ar.add md 8) 4
    if major ≥ 1000 ∨ minor ≥ 1000 ∨ arb ≥ 128 then return none else return some arb

def headerIndex (offset size j : Nat) : Option (Option Nat) := do
  let h ← ar.add offset j
  let version ← little image h 4
  let common ← little image (← ar.add h 4) 4
  let qti ← little image (← ar.add h 8) 4
  let oem ← little image (← ar.add h 12) 4
  let hashes ← little image (← ar.add h 16) 4
  if version < 1 ∨ version > 10 ∨ common > 4096 ∨ qti > 4096 ∨ oem < 12 ∨ oem > 16384 ∨ hashes = 0 ∨
      hashes % 16 ≠ 0 then return none
  else metadataIndex ar image size j h common qti oem hashes

def scanSegment (offset size : Nat) : Nat → Nat → Option (Option Nat)
  | 0, _ => some none
  | n + 1, j => do
      if ¬ j < min 4096 size then return none
      else if (← ar.sub size j) < 36 then return none
      else match ← headerIndex ar image offset size j with
        | some arb => return some arb
        | none => scanSegment offset size n (← ar.add j 4)

def segmentIndex (table stride i : Nat) : Option (Option Nat) := do
  let ph ← ar.add table (← ar.mul i stride)
  let type ← little image ph 4
  let flags ← little image (← ar.add ph 4) 4
  let offset ← little image (← ar.add ph 8) 8
  let size ← little image (← ar.add ph 32) 8
  if type ≠ 0 ∨ flags % 2 = 1 ∨ offset > image.length then return none
  else if size > (← ar.sub image.length offset) ∨ size < 36 then return none
  else scanSegment ar image offset size 1024 0

def readEntries (table stride : Nat) : List Nat → Arb → Option Arb
  | [], result => some result
  | i :: entries, result => do
      match ← segmentIndex ar image table stride i with
      | none => readEntries table stride entries result
      | some arb =>
        if result.available ∧ result.index ≠ arb then return conflicting
        else readEntries table stride entries (reported arb)

/-- There is no result if a sum, difference or product is not formed, or if bytes outside of the vector are read. -/
def readFirmwareArb : Option Arb := do
  if image.length < 64 ∨ image.take 4 ≠ [127, 69, 76, 70] ∨ byte image 4 ≠ 2 ∨ byte image 5 ≠ 1 then return unsupported
  else
    let table ← little image 32 8
    let stride ← little image 54 2
    let count ← little image 56 2
    let bytes ← ar.mul count stride
    if stride < 56 ∨ count = 0 ∨ bytes > 65536 ∨ table > image.length then return unsupported
    else if bytes > (← ar.sub image.length table) then return unsupported
    else readEntries ar image table stride (range count) unsupported

end

section

variable (image : Bytes)

def metadata (h : Nat) : Nat := h + (36 + number image (h + 4) 4 + number image (h + 8) 4)

@[mk_iff]
structure ValidHeader (h left : Nat) : Prop where
  version : 1 ≤ number image h 4 ∧ number image h 4 ≤ 10
  common : number image (h + 4) 4 ≤ 4096
  qti : number image (h + 8) 4 ≤ 4096
  oem : 12 ≤ number image (h + 12) 4 ∧ number image (h + 12) 4 ≤ 16384
  hashes : number image (h + 16) 4 ≠ 0 ∧ number image (h + 16) 4 % 16 = 0
  fits : 36 + number image (h + 4) 4 + number image (h + 8) 4 + number image (h + 12) 4 +
    number image (h + 16) 4 ≤ left
  major : number image (metadata image h) 4 < 1000
  minor : number image (metadata image h + 4) 4 < 1000
  arb : number image (metadata image h + 8) 4 < 128

instance (h left : Nat) : Decidable (ValidHeader image h left) := decidable_of_iff' _ (validHeader_iff image h left)

def indexAt (offset size j : Nat) : Option Nat :=
  if j + 36 ≤ size ∧ ValidHeader image (offset + j) (size - j) then
    some (number image (metadata image (offset + j) + 8) 4)
  else none

/-- The index in the first valid header of the first 4096 bytes of a segment. -/
def firstIndex (offset size : Nat) : Option Nat := (range' 0 1024 4).findSome? (indexAt image offset size)

def tableOffset : Nat := number image 32 8

def entrySize : Nat := number image 54 2

def entryCount : Nat := number image 56 2

/-- The program header entry at `ph` is of an eligible segment. -/
@[mk_iff]
structure Eligible (ph : Nat) : Prop where
  type : number image ph 4 = 0
  flags : number image (ph + 4) 4 % 2 = 0
  inside : number image (ph + 8) 8 + number image (ph + 32) 8 ≤ image.length
  size : 36 ≤ number image (ph + 32) 8

instance (ph : Nat) : Decidable (Eligible image ph) := decidable_of_iff' _ (eligible_iff image ph)

def entryIndex (ph : Nat) : Option Nat :=
  if Eligible image ph then firstIndex image (number image (ph + 8) 8) (number image (ph + 32) 8) else none

/-- A 64-bit little-endian ELF file with a program header table inside. -/
@[mk_iff]
structure Supported : Prop where
  header : 64 ≤ image.length
  magic : image.take 4 = [127, 69, 76, 70]
  wide : byte image 4 = 2
  order : byte image 5 = 1
  stride : 56 ≤ entrySize image
  count : entryCount image ≠ 0
  small : entryCount image * entrySize image ≤ 65536
  inside : tableOffset image + entryCount image * entrySize image ≤ image.length

instance : Decidable (Supported image) := decidable_of_iff' _ (supported_iff image)

def entries : List Nat :=
  if Supported image then (range (entryCount image)).map fun i => tableOffset image + i * entrySize image else []

end

def verdict : List Nat → Arb
  | [] => unsupported
  | k :: ks => if ∀ k' ∈ ks, k' = k then reported k else conflicting

variable {offset size : Nat}

section

variable {ar : Arithmetic} {image : Bytes}

theorem little_bind {β : Type} {pos n : Nat} (h : pos + n ≤ image.length) (f : Nat → Option β) :
    (little image pos n >>= f) = f (number image pos n) := by rw [little, if_pos h]; rfl

theorem number_lt (image : Bytes) (pos n : Nat) : number image pos n < 256 ^ n := by
  have hlt := LittleEndian.value_lt (slice image pos n)
  have hle : (slice image pos n).length ≤ n := length_take_le _ _
  exact hlt.trans_le (Nat.pow_le_pow_right (by omega) hle)

section

variable (har : ar.Faithful) (hlength : image.length < 2 ^ 63)

include har hlength

theorem metadataIndex_eq {size j h common qti oem hashes : Nat} (hin : h + (size - j) ≤ image.length)
    (hsize : size ≤ image.length) (hj : j ≤ size) (hc : common ≤ 4096) (hq : qti ≤ 4096) (ho : 12 ≤ oem)
    (ho' : oem ≤ 16384) : metadataIndex ar image size j h common qti oem hashes =
      some (if 36 + common + qti + oem + hashes ≤ size - j ∧ number image (h + (36 + common + qti)) 4 < 1000 ∧
        number image (h + (36 + common + qti) + 4) 4 < 1000 ∧ number image (h + (36 + common + qti) + 8) 4 < 128 then
        some (number image (h + (36 + common + qti) + 8) 4) else none) := by
  rw [metadataIndex, har.sub_bind (by omega) hj, har.add_bind (by omega), har.add_bind (by omega),
    har.add_bind (by omega)]
  by_cases hbody : 36 + common + qti + oem > size - j
  · rw [if_pos hbody, if_neg (by omega)]
    rfl
  rw [if_neg hbody, har.sub_bind (by omega) (by omega)]
  by_cases hhashes : hashes > size - j - (36 + common + qti + oem)
  · rw [if_pos hhashes, if_neg (by omega)]
    rfl
  have hmd : h + 36 + common + qti = h + (36 + common + qti) := by omega
  rw [if_neg hhashes, har.add_bind (by omega), har.add_bind (by omega), har.add_bind (by omega), hmd,
    little_bind (by omega), har.add_bind (by omega), little_bind (by omega), har.add_bind (by omega),
    little_bind (by omega)]
  split_ifs with hbad hgood hgood
  · omega
  · rfl
  · rfl
  · omega

theorem headerIndex_eq {offset size j : Nat} (hin : offset + size ≤ image.length) (hj : j + 36 ≤ size) :
    headerIndex ar image offset size j = some (indexAt image offset size j) := by
  rw [headerIndex, har.add_bind (by omega), little_bind (by omega), har.add_bind (by omega), little_bind (by omega),
    har.add_bind (by omega), little_bind (by omega), har.add_bind (by omega), little_bind (by omega),
    har.add_bind (by omega), little_bind (by omega), indexAt]
  split_ifs with hbad hvalid hvalid
  · obtain ⟨-, ⟨hv, hc, hq, ho, hh, -⟩⟩ := hvalid
    omega
  · rfl
  · rw [metadataIndex_eq har hlength (by omega) (by omega) (by omega) (by omega) (by omega) (by omega) (by omega)]
    exact congrArg some (if_pos ⟨hvalid.2.fits, hvalid.2.major, hvalid.2.minor, hvalid.2.arb⟩)
  · rw [metadataIndex_eq har hlength (by omega) (by omega) (by omega) (by omega) (by omega) (by omega) (by omega)]
    refine congrArg some (if_neg fun hgood => hvalid ⟨hj, ?_⟩)
    exact ⟨by omega, by omega, by omega, by omega, by omega, hgood.1, hgood.2.1, hgood.2.2.1, hgood.2.2.2⟩

theorem scanSegment_eq (hin : offset + size ≤ image.length) (n j : Nat) (hn : j + 4 * n = 4096) :
    scanSegment ar image offset size n j = some ((range' j n 4).findSome? (indexAt image offset size)) := by
  induction n generalizing j with
  | zero => rfl
  | succ n ih =>
    have hrest : ∀ m, (¬ j + 36 ≤ size) → (range' (j + 4) m 4).findSome? (indexAt image offset size) = none := by
      intro m hj
      refine findSome?_eq_none_iff.mpr fun k hk => if_neg fun h => ?_
      obtain ⟨i, -, rfl⟩ := mem_range'.mp hk
      omega
    rw [scanSegment, range'_succ, findSome?_cons]
    by_cases hroom : j + 36 ≤ size
    · rw [if_neg (by omega), har.sub_bind (by omega) (by omega), if_neg (by omega),
        headerIndex_eq har hlength hin hroom]
      cases hindex : indexAt image offset size j with
      | some arb => rfl
      | none =>
        change (ar.add j 4 >>= _) = _
        rw [har.add_bind (by omega), ih (j + 4) (by omega)]
    · have hnone : indexAt image offset size j = none := if_neg fun h => hroom h.1
      rw [hnone, hrest n hroom]
      by_cases hend : j < min 4096 size
      · rw [if_neg (not_not.mpr hend), har.sub_bind (by omega) (by omega), if_pos (by omega)]
        rfl
      · rw [if_pos hend]
        rfl

theorem segmentIndex_eq {table stride i : Nat} (hin : table + i * stride + 56 ≤ image.length) :
    segmentIndex ar image table stride i = some (entryIndex image (table + i * stride)) := by
  rw [segmentIndex, har.mul_bind (by omega), har.add_bind (by omega), little_bind (by omega), har.add_bind (by omega),
    little_bind (by omega), har.add_bind (by omega), little_bind (by omega), har.add_bind (by omega),
    little_bind (by omega), entryIndex]
  split_ifs with hbad heligible heligible
  · obtain ⟨h₁, h₂, h₃, h₄⟩ := heligible
    omega
  · rfl
  · have hinside := heligible.inside
    rw [har.sub_bind (by omega) (by omega), if_neg (by have := heligible.size; omega),
      scanSegment_eq har hlength hinside 1024 0 rfl]
    rfl
  · rw [har.sub_bind (by omega) (by omega), if_pos]
    · rfl
    · by_contra hsize
      exact heligible ⟨by omega, by omega, by omega, by omega⟩

end

theorem verdict_cons_cons (k k' : Nat) (ks : List Nat) :
    verdict (k :: k' :: ks) = if k' = k then verdict (k :: ks) else conflicting := by
  simp only [verdict, forall_mem_cons]
  by_cases h : k' = k <;> simp [h]

theorem readEntries_eq {table stride : Nat} {f : Nat → Option Nat} {entries : List Nat}
    (hf : ∀ i ∈ entries, segmentIndex ar image table stride i = some (f i)) :
    readEntries ar image table stride entries unsupported = some (verdict (entries.filterMap f)) ∧
      ∀ k, readEntries ar image table stride entries (reported k) = some (verdict (k :: entries.filterMap f)) := by
  induction entries with
  | nil => exact ⟨rfl, fun k => rfl⟩
  | cons i entries ih =>
    rw [forall_mem_cons] at hf
    obtain ⟨hunsupported, hreported⟩ := ih hf.2
    cases hi : f i with
    | none =>
      rw [filterMap_cons_none hi]
      constructor
      · rw [readEntries, hf.1, hi]
        exact hunsupported
      · intro k
        rw [readEntries, hf.1, hi]
        exact hreported k
    | some arb =>
      rw [filterMap_cons_some hi]
      constructor
      · rw [readEntries, hf.1, hi]
        exact hreported arb
      · intro k
        rw [readEntries, hf.1, hi, verdict_cons_cons]
        change (if true ∧ k ≠ arb then some conflicting else readEntries ar image table stride entries (reported arb)) = _
        by_cases heq : arb = k
        · rw [if_neg (by simp [heq]), if_pos heq, hreported arb, heq]
        · rw [if_pos ⟨rfl, fun h => heq h.symm⟩, if_neg heq]

/-- Whether or not sums may wrap, none does, and nothing outside of the vector is read. -/
theorem readFirmwareArb_eq (har : ar.Faithful) (hlength : image.length < 2 ^ 63) :
    readFirmwareArb ar image = some (verdict ((entries image).filterMap (entryIndex image))) := by
  have hstride := number_lt image 54 2
  have hcount := number_lt image 56 2
  have hproduct : number image 56 2 * number image 54 2 ≤ 65535 * 65535 := Nat.mul_le_mul (by omega) (by omega)
  rw [readFirmwareArb, entries]
  by_cases hheader : image.length < 64 ∨ image.take 4 ≠ [127, 69, 76, 70] ∨ byte image 4 ≠ 2 ∨ byte image 5 ≠ 1
  · rw [if_pos hheader, if_neg]
    · rfl
    · rintro ⟨h₁, h₂, h₃, h₄, -⟩
      simp [h₂, h₃, h₄] at hheader
      omega
  rw [if_neg hheader, little_bind (by omega), little_bind (by omega), little_bind (by omega), har.mul_bind (by omega)]
  by_cases htable : number image 54 2 < 56 ∨ number image 56 2 = 0 ∨ number image 56 2 * number image 54 2 > 65536 ∨
      number image 32 8 > image.length
  · rw [if_pos htable, if_neg]
    · rfl
    · rintro ⟨-, -, -, -, h₁, h₂, h₃, h₄⟩
      simp only [entrySize, entryCount, tableOffset] at h₁ h₂ h₃ h₄
      omega
  rw [if_neg htable, har.sub_bind (by omega) (by omega)]
  simp only [not_or, not_lt, not_not, gt_iff_lt] at hheader htable
  by_cases hinside : number image 56 2 * number image 54 2 > image.length - number image 32 8
  · rw [if_pos hinside, if_neg]
    · rfl
    · rintro ⟨-, -, -, -, -, -, -, h⟩
      simp only [entrySize, entryCount, tableOffset] at h
      omega
  · rw [if_neg hinside, if_pos, filterMap_map]
    · refine (readEntries_eq fun i hi => segmentIndex_eq har hlength ?_).1
      have hle : (i + 1) * number image 54 2 ≤ number image 56 2 * number image 54 2 :=
        Nat.mul_le_mul_right _ (mem_range.mp hi)
      rw [Nat.succ_mul] at hle
      omega
    · exact ⟨hheader.1, hheader.2.1, hheader.2.2.1, hheader.2.2.2, htable.1, htable.2.1, htable.2.2.1,
        by simp only [entrySize, entryCount, tableOffset]; omega⟩

end

theorem verdict_congr {l l' : List Nat} (h : ∀ k, k ∈ l ↔ k ∈ l') : verdict l = verdict l' := by
  have hall : ∀ (k : Nat) (ks : List Nat), verdict (k :: ks) = if ∀ k' ∈ k :: ks, k' = k then reported k else conflicting := by
    simp [verdict]
  cases l with
  | nil =>
    cases l' with
    | nil => rfl
    | cons k' ks' => exact absurd ((h k').mpr mem_cons_self) not_mem_nil
  | cons k ks =>
    cases l' with
    | nil => exact absurd ((h k).mp mem_cons_self) not_mem_nil
    | cons k' ks' =>
      rw [hall, hall]
      by_cases hk : ∀ x ∈ k :: ks, x = k
      · obtain rfl : k' = k := hk k' ((h k').mpr mem_cons_self)
        rw [if_pos hk, if_pos fun x hx => hk x ((h x).mpr hx)]
      · rw [if_neg hk, if_neg]
        intro hk'
        have hkk : k = k' := hk' k ((h k).mp mem_cons_self)
        exact hk fun x hx => (hk' x ((h x).mp hx)).trans hkk.symm

theorem available_verdict {l : List Nat} {k : Nat} :
    ((verdict l).available = true ∧ (verdict l).index = k) ↔ k ∈ l ∧ ∀ k' ∈ l, k' = k := by
  cases l with
  | nil => simp [verdict, unsupported]
  | cons a l =>
    rw [verdict]
    split_ifs with h
    · simp only [reported, true_and]
      constructor
      · rintro rfl
        exact ⟨mem_cons_self, forall_mem_cons.mpr ⟨rfl, h⟩⟩
      · exact fun hk => hk.2 a mem_cons_self
    · refine iff_of_false (fun hk => Bool.false_ne_true hk.1) fun hk => h fun k' hk' => ?_
      rw [forall_mem_cons] at hk
      exact (hk.2.2 k' hk').trans hk.2.1.symm

section

variable {image image' : Bytes}

def tableEnd (image : Bytes) : Nat := tableOffset image + entryCount image * entrySize image

/-- The entries of the program header table of `image` in another order: entry `i` is the one with number `order i`. -/
structure Reordered (image image' : Bytes) (order : List Nat) : Prop where
  perm : order.Perm (range (entryCount image))
  length : image'.length = image.length
  before : image'.take (tableOffset image) = image.take (tableOffset image)
  after : image'.drop (tableEnd image) = image.drop (tableEnd image)
  moved : ∀ i < entryCount image, slice image' (tableOffset image + i * entrySize image) (entrySize image) =
    slice image (tableOffset image + order.getD i 0 * entrySize image) (entrySize image)

structure Separate (image : Bytes) : Prop where
  header : 64 ≤ tableOffset image
  segment : ∀ ph ∈ entries image, Eligible image ph →
    number image (ph + 8) 8 + number image (ph + 32) 8 ≤ tableOffset image ∨ tableEnd image ≤ number image (ph + 8) 8

def SameIn (image image' : Bytes) (offset size : Nat) : Prop :=
  ∀ pos n, offset ≤ pos → pos + n ≤ offset + size → number image' pos n = number image pos n

variable {order : List Nat}

theorem Reordered.sameIn (h : Reordered image image' order)
    (hapart : offset + size ≤ tableOffset image ∨ tableEnd image ≤ offset) : SameIn image image' offset size := by
  intro pos n hpos hn
  rw [number, number]
  congr 1
  rcases hapart with hbefore | hafter
  · rw [← slice_take (show pos + n ≤ tableOffset image by omega), h.before, slice_take (by omega)]
  · have hdrop : pos = tableEnd image + (pos - tableEnd image) := by omega
    rw [slice, slice, hdrop, ← drop_drop, ← drop_drop, h.after]

theorem SameIn.symm (h : SameIn image image' offset size) : SameIn image' image offset size :=
  fun pos n hpos hn => (h pos n hpos hn).symm

theorem SameIn.validHeader {offset size j : Nat} (h : SameIn image image' offset size) (hj : j + 36 ≤ size)
    (hvalid : ValidHeader image (offset + j) (size - j)) : ValidHeader image' (offset + j) (size - j) ∧
      number image' (metadata image' (offset + j) + 8) 4 = number image (metadata image (offset + j) + 8) 4 := by
  obtain ⟨hv, hc, hq, ho, hh, hfits, hmajor, hminor, harb⟩ := hvalid
  have hversion := h (offset + j) 4 (by omega) (by omega)
  have hcommon := h (offset + j + 4) 4 (by omega) (by omega)
  have hqti := h (offset + j + 8) 4 (by omega) (by omega)
  have hoem := h (offset + j + 12) 4 (by omega) (by omega)
  have hhashes := h (offset + j + 16) 4 (by omega) (by omega)
  have hmetadata : metadata image' (offset + j) = metadata image (offset + j) := by rw [metadata, metadata, hcommon, hqti]
  have hbound : metadata image (offset + j) + 12 ≤ offset + size := by
    rw [metadata]
    omega
  have hstart : offset ≤ metadata image (offset + j) := by
    rw [metadata]
    omega
  have hmajor' := h (metadata image (offset + j)) 4 hstart (by omega)
  have hminor' := h (metadata image (offset + j) + 4) 4 (by omega) (by omega)
  have harb' := h (metadata image (offset + j) + 8) 4 (by omega) (by omega)
  constructor
  · constructor <;> simp only [hversion, hcommon, hqti, hoem, hhashes, hmetadata, hmajor', hminor', harb'] <;> assumption
  · rw [hmetadata, harb']

theorem SameIn.indexAt_eq (h : SameIn image image' offset size) (j : Nat) :
    indexAt image' offset size j = indexAt image offset size j := by
  rw [indexAt, indexAt]
  by_cases hvalid : j + 36 ≤ size ∧ ValidHeader image (offset + j) (size - j)
  · obtain ⟨hvalid', hnumber⟩ := h.validHeader hvalid.1 hvalid.2
    rw [if_pos hvalid, if_pos ⟨hvalid.1, hvalid'⟩, hnumber]
  · rw [if_neg hvalid, if_neg fun hvalid' => hvalid ⟨hvalid'.1, (h.symm.validHeader hvalid'.1 hvalid'.2).1⟩]

section

variable (h : Reordered image image' order)

include h

theorem Reordered.number_entry {i k n : Nat} (hi : i < entryCount image) (hn : k + n ≤ entrySize image) :
    number image' (tableOffset image + i * entrySize image + k) n =
      number image (tableOffset image + order.getD i 0 * entrySize image + k) n := by
  rw [number, number, ← slice_slice hn, h.moved i hi, slice_slice hn]

section

variable (hseparate : Separate image)

include hseparate

theorem Reordered.entryIndex_eq (hsupported : Supported image) {i : Nat} (hi : i < entryCount image) :
    entryIndex image' (tableOffset image + i * entrySize image) =
      entryIndex image (tableOffset image + order.getD i 0 * entrySize image) := by
  have hstride := hsupported.stride
  have htype : number image' (tableOffset image + i * entrySize image) 4 =
      number image (tableOffset image + order.getD i 0 * entrySize image) 4 :=
    h.number_entry hi (show 0 + 4 ≤ entrySize image by omega)
  have hflags := h.number_entry hi (show 4 + 4 ≤ entrySize image by omega)
  have hoffset := h.number_entry hi (show 8 + 8 ≤ entrySize image by omega)
  have hsize := h.number_entry hi (show 32 + 8 ≤ entrySize image by omega)
  have hmem : order.getD i 0 < entryCount image := by
    have hlength : i < order.length := by rwa [h.perm.length_eq, length_range]
    rw [getD_eq_getElem order 0 hlength]
    exact mem_range.mp (h.perm.mem_iff.mp (getElem_mem hlength))
  have heligible' : Eligible image' (tableOffset image + i * entrySize image) ↔
      Eligible image (tableOffset image + order.getD i 0 * entrySize image) := by
    rw [eligible_iff, eligible_iff, htype, hflags, hoffset, hsize, h.length]
  rw [entryIndex, entryIndex, hoffset, hsize]
  by_cases heligible : Eligible image (tableOffset image + order.getD i 0 * entrySize image)
  · have hsegment := hseparate.segment (tableOffset image + order.getD i 0 * entrySize image) (by
      rw [entries, if_pos hsupported]
      exact mem_map_of_mem (mem_range.mpr hmem)) heligible
    have hsame := h.sameIn hsegment
    rw [if_pos heligible, if_pos (heligible'.mpr heligible), firstIndex, firstIndex]
    exact congrArg (fun f => findSome? f _) (funext hsame.indexAt_eq)
  · rw [if_neg heligible, if_neg fun heq => heligible (heligible'.mp heq)]

theorem Reordered.header : image'.take 64 = image.take 64 := by
  have htake := congrArg (take 64) h.before
  rwa [take_take, take_take, min_eq_left hseparate.header] at htake

theorem Reordered.entries_eq : entries image' = entries image := by
  have hheader := h.header hseparate
  have hsame : ∀ pos n, pos + n ≤ 64 → number image' pos n = number image pos n := by
    intro pos n hn
    rw [number, number, ← slice_take hn, hheader, slice_take hn]
  have hbyte : ∀ i < 64, byte image' i = byte image i := by
    intro i hi
    rw [← byte_take hi, hheader, byte_take hi]
  have hmagic : image'.take 4 = image.take 4 := by
    have htake := congrArg (take 4) hheader
    rwa [take_take, take_take] at htake
  simp only [entries, supported_iff, tableOffset, entrySize, entryCount, hsame 32 8 (by omega), hsame 54 2 (by omega),
    hsame 56 2 (by omega), hbyte 4 (by omega), hbyte 5 (by omega), hmagic, h.length]

theorem Reordered.verdict_eq :
    verdict ((entries image').filterMap (entryIndex image')) = verdict ((entries image).filterMap (entryIndex image)) := by
  rw [h.entries_eq hseparate]
  by_cases hsupported : Supported image
  · have horder : order = (range (entryCount image)).map fun i => order.getD i 0 := by
      have hlength : order.length = entryCount image := by rw [h.perm.length_eq, length_range]
      refine ext_getElem (by simp [hlength]) fun i hi hi' => ?_
      simp [hi]
    have hindices : ((range (entryCount image)).map fun i => tableOffset image + i * entrySize image).filterMap
        (entryIndex image') =
          order.filterMap fun i => entryIndex image (tableOffset image + i * entrySize image) := by
      conv_rhs => rw [horder]
      rw [filterMap_map, filterMap_map]
      exact filterMap_congr fun i hi => h.entryIndex_eq hseparate hsupported (mem_range.mp hi)
    rw [entries, if_pos hsupported, hindices, filterMap_map]
    exact verdict_congr fun k => (h.perm.filterMap _).mem_iff
  · rw [entries, if_neg hsupported]
    rfl

end

end

end

/-- The image as a `std::vector`, whose size is at most `PTRDIFF_MAX`. -/
abbrev ByteVector := { image : Bytes // image.length < 2 ^ 63 }

theorem readFirmwareArb_spec (image : ByteVector) :
    ∃ result, readFirmwareArb strict image = some result ∧ readFirmwareArb wrapping image = some result ∧
      (∀ image' order, Separate image → Reordered image image' order →
        readFirmwareArb wrapping image' = some result) ∧
      (∀ k, (result.available = true ∧ result.index = k) ↔ (∃ ph ∈ entries image, entryIndex image ph = some k) ∧
          ∀ ph ∈ entries image, ∀ k', entryIndex image ph = some k' → k' = k) ∧
      ∀ ph ∈ entries image, ∀ ph' ∈ entries image, ∀ k k', entryIndex image ph = some k →
        entryIndex image ph' = some k' → k ≠ k' → result.available = false := by
  have hreports : ∀ k, ((verdict ((entries image).filterMap (entryIndex image))).available = true ∧
      (verdict ((entries image).filterMap (entryIndex image))).index = k) ↔
        (∃ ph ∈ entries image, entryIndex image ph = some k) ∧
          ∀ ph ∈ entries image, ∀ k', entryIndex image ph = some k' → k' = k := by
    intro k
    rw [available_verdict, mem_filterMap]
    refine and_congr_right fun _ => ⟨fun h ph hph k' hk' => h k' (mem_filterMap.mpr ⟨ph, hph, hk'⟩), ?_⟩
    intro h k' hk'
    obtain ⟨ph, hph, hindex⟩ := mem_filterMap.mp hk'
    exact h ph hph k' hindex
  refine ⟨_, readFirmwareArb_eq faithful_strict image.2, readFirmwareArb_eq faithful_wrapping image.2, ?_, hreports, ?_⟩
  · intro image' order hseparate horder
    rw [readFirmwareArb_eq faithful_wrapping (by rw [horder.length]; exact image.2), horder.verdict_eq hseparate]
  · intro ph hph ph' hph' k k' hk hk' hne
    by_contra havailable
    obtain ⟨-, hall⟩ := (hreports _).mp ⟨Bool.eq_true_of_not_eq_false havailable, rfl⟩
    exact hne ((hall ph hph k hk).trans (hall ph' hph' k' hk').symm)

/-- A program header entry of 120 bytes: `type`, no flags, a segment that is the table, and a metadata header with the
index `arb` after the 56 bytes that are read. -/
def paddedEntry (type arb : Nat) : Bytes :=
  bytes 8 type ++ bytes 8 64 ++ replicate 16 0 ++ bytes 8 240 ++
    replicate 16 0 ++ bytes 4 1 ++ replicate 8 0 ++ bytes 4 12 ++
    bytes 4 16 ++ replicate 16 0 ++ replicate 8 0 ++ bytes 4 arb ++ replicate 16 0

def elfHeader (entrySize : Nat) : Bytes :=
  [127, 69, 76, 70, 2, 1] ++ replicate 26 0 ++ bytes 8 64 ++ replicate 14 0 ++
    bytes 2 entrySize ++ bytes 2 2 ++ replicate 6 0

def paddedImage (entries : Bytes) : Bytes := elfHeader 120 ++ entries

def plainEntry (type : Nat) : Bytes :=
  bytes 8 type ++ bytes 8 176 ++ replicate 16 0 ++ bytes 8 64 ++ replicate 16 0

/-- Two entries with the header of one segment behind the table. -/
def plainImage (entries : Bytes) : Bytes :=
  elfHeader 56 ++ entries ++ bytes 4 1 ++ replicate 8 0 ++ bytes 4 12 ++ bytes 4 16 ++ replicate 24 0 ++
    bytes 4 7 ++ replicate 16 0

theorem readFirmwareArb_spec_swapped :
    Reordered (plainImage (plainEntry 0 ++ plainEntry 1)) (plainImage (plainEntry 1 ++ plainEntry 0)) [1, 0] ∧
      readFirmwareArb wrapping (plainImage (plainEntry 1 ++ plainEntry 0)) = some (reported 7) := by
  have hseparate : Separate (plainImage (plainEntry 0 ++ plainEntry 1)) := ⟨by decide +kernel, by decide +kernel⟩
  have hreordered : Reordered (plainImage (plainEntry 0 ++ plainEntry 1)) (plainImage (plainEntry 1 ++ plainEntry 0))
      [1, 0] := by
    refine ⟨?_, ?_, ?_, ?_, ?_⟩ <;> decide +kernel
  have hfirst : readFirmwareArb wrapping (plainImage (plainEntry 0 ++ plainEntry 1)) = some (reported 7) := by
    decide +kernel
  obtain ⟨result, -, hresult, hsame, -⟩ :=
    readFirmwareArb_spec ⟨plainImage (plainEntry 0 ++ plainEntry 1), by decide +kernel⟩
  rw [hfirst] at hresult
  rw [hsame _ _ hseparate hreordered, ← hresult]
  exact ⟨hreordered, rfl⟩

theorem readFirmwareArb_reordered :
    Reordered (paddedImage (paddedEntry 0 1 ++ paddedEntry 1 2)) (paddedImage (paddedEntry 1 2 ++ paddedEntry 0 1)) [1, 0] ∧
      readFirmwareArb wrapping (paddedImage (paddedEntry 0 1 ++ paddedEntry 1 2)) = some (reported 1) ∧
      readFirmwareArb wrapping (paddedImage (paddedEntry 1 2 ++ paddedEntry 0 1)) = some (reported 2) := by
  refine ⟨⟨?_, ?_, ?_, ?_, ?_⟩, ?_, ?_⟩ <;> decide +kernel

end AeraRecovery.Payload.FirmwareArb
