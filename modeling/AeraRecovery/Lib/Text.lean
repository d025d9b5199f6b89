import AeraRecovery.Lib.Bytes

namespace AeraRecovery.Lib.Text

open List Nat UInt8

/-! Decimal numbers and the formatted input of a stream in the classic locale. Every extraction first skips white space
and returns what it has read together with the rest of the stream. -/

def isSpace (c : UInt8) : Bool := c = 32 || (9 ≤ c && c ≤ 13)

def isDigit (c : UInt8) : Bool := 48 ≤ c && c ≤ 57

variable (s : Bytes)

def skipSpace : Bytes := s.dropWhile isSpace

def extractWord : Option (Bytes × Bytes) :=
  let s := skipSpace s
  let word := s.takeWhile (!isSpace ·)
  if word = [] then none else some (word, s.dropWhile (!isSpace ·))

def sign : Bytes → Bool × Bytes
  | 43 :: s => (false, s)
  | 45 :: s => (true, s)
  | s => (false, s)

def value (digits : Bytes) : Nat := digits.foldl (fun n c => 10 * n + (c.toNat - 48)) 0

/-- An unsigned number. A minus sign is allowed and negates modulo `2 ^ 64`; a magnitude that does not fit is an error. -/
def extractNumber : Option (UInt64 × Bytes) :=
  let (negative, s) := sign (skipSpace s)
  let digits := s.takeWhile isDigit
  if digits = [] ∨ 2 ^ 64 ≤ value digits then none
  else
    let n := UInt64.ofNat (value digits)
    some (if negative then -n else n, s.dropWhile isDigit)

def extractInt : Option (Int × Bytes) :=
  let (negative, s) := sign (skipSpace s)
  let digits := s.takeWhile isDigit
  let n : Int := if negative then -value digits else value digits
  if digits = [] ∨ n < -2 ^ 31 ∨ 2 ^ 31 ≤ n then none else some (n, s.dropWhile isDigit)

/-- An unsigned number as `sscanf` reads it: a magnitude that does not fit becomes the largest number. -/
def scanNumber : Option (UInt64 × Bytes) :=
  let (negative, s) := sign (skipSpace s)
  let digits := s.takeWhile isDigit
  if digits = [] then none
  else if 2 ^ 64 ≤ value digits then some (18446744073709551615, s.dropWhile isDigit)
  else
    let n := UInt64.ofNat (value digits)
    some (if negative then -n else n, s.dropWhile isDigit)

def trim : Bytes := (skipSpace s).rdropWhile isSpace

def unlines (lines : List Bytes) : Bytes := lines.flatMap (· ++ [10])

def decimal (n : Nat) : Bytes := (toDigits 10 n).map fun c => c.toNat.toUInt8

def Delimited (rest : Bytes) : Prop := ∀ c ∈ rest.head?, c = 32

theorem delimited_nil : Delimited [] := nofun

theorem delimited_blank : Delimited (32 :: s) := by
  intro c hc
  exact (Option.some.inj hc).symm

variable {p : UInt8 → Bool} {w rest : Bytes}

section

variable (hw : ∀ c ∈ w, p c = true)

include hw

theorem takeWhile_stop (hrest : ∀ c ∈ rest.head?, p c = false) : (w ++ rest).takeWhile p = w := by
  rw [takeWhile_append_of_pos hw]
  cases rest with
  | nil => exact append_nil w
  | cons c rest =>
    rw [takeWhile_cons_of_neg (by rw [hrest c rfl]; exact Bool.false_ne_true), append_nil]

theorem dropWhile_stop (hrest : ∀ c ∈ rest.head?, p c = false) : (w ++ rest).dropWhile p = rest := by
  rw [dropWhile_append_of_pos hw]
  cases rest with
  | nil => rfl
  | cons c rest => rw [dropWhile_cons_of_neg (by rw [hrest c rfl]; exact Bool.false_ne_true)]

theorem takeWhile_token (hrest : Delimited rest) (hp : p 32 = false) : (w ++ rest).takeWhile p = w :=
  takeWhile_stop hw fun c hc => hrest c hc ▸ hp

theorem dropWhile_token (hrest : Delimited rest) (hp : p 32 = false) : (w ++ rest).dropWhile p = rest :=
  dropWhile_stop hw fun c hc => hrest c hc ▸ hp

end

@[simp]
theorem extractNumber_blank : extractNumber (32 :: s) = extractNumber s := rfl

@[simp]
theorem extractWord_blank : extractWord (32 :: s) = extractWord s := rfl

@[simp]
theorem scanNumber_blank : scanNumber (32 :: s) = scanNumber s := rfl

variable {w : Bytes}

section

variable (hne : w ≠ []) (hw : ∀ c ∈ w, isSpace c = false)

include hne hw

theorem skipSpace_append (rest : Bytes) : skipSpace (w ++ rest) = w ++ rest := by
  cases w with
  | nil => exact absurd rfl hne
  | cons c w =>
    have hc := hw c mem_cons_self
    exact dropWhile_cons_of_neg (by rw [hc]; exact Bool.false_ne_true)

theorem extractWord_append (hrest : Delimited rest) : extractWord (w ++ rest) = some (w, rest) := by
  have hall : ∀ c ∈ w, (!isSpace c) = true := fun c hc => by rw [hw c hc]; rfl
  simp only [extractWord, skipSpace_append hne hw, takeWhile_token hall hrest rfl, dropWhile_token hall hrest rfl,
    if_neg hne]

theorem extractWord_line : extractWord (w ++ [10]) = some (w, [10]) := by
  have hall : ∀ c ∈ w, (!isSpace c) = true := fun c hc => by rw [hw c hc]; rfl
  have htake : (w ++ [10]).takeWhile (!isSpace ·) = w := by
    rw [takeWhile_append_of_pos hall]
    exact append_nil w
  have hdrop : (w ++ [10]).dropWhile (!isSpace ·) = [10] := by
    rw [dropWhile_append_of_pos hall]
    rfl
  simp only [extractWord, skipSpace_append hne hw, htake, hdrop, if_neg hne]

end

theorem extractWord_nil : extractWord [] = none := rfl

theorem splitOn_unlines {lines : List Bytes} (h : ∀ l ∈ lines, 10 ∉ l) (t : Bytes) :
    (unlines lines ++ t).splitOn 10 = lines ++ t.splitOn 10 := by
  induction lines with
  | nil => rfl
  | cons l lines ih =>
    rw [forall_mem_cons] at h
    rw [unlines, flatMap_cons, append_assoc, append_assoc, singleton_append,
      splitOn_append_cons_self_of_not_mem h.1, cons_append, ← ih h.2]
    rfl

theorem splitOnP_append_of_forall_mem {α : Type} {p : α → Bool} {w : List α} (hw : ∀ c ∈ w, p c = false) (s : List α) :
    (w ++ s).splitOnP p = (s.splitOnP p).modifyHead (w ++ ·) := by
  induction w with
  | nil => exact (congrFun modifyHead_id _).symm
  | cons c w ih =>
    rw [forall_mem_cons] at hw
    rw [cons_append, splitOnP_cons_eq_if_modifyHead, if_neg (by rw [hw.1]; exact Bool.false_ne_true), ih hw.2,
      modifyHead_modifyHead]
    rfl

theorem forall_mem_of_mem_splitOnP {α : Type} {p : α → Bool} {s w : List α} (hw : w ∈ s.splitOnP p) :
    ∀ c ∈ w, p c = false := by
  induction s generalizing w with
  | nil =>
    obtain rfl := mem_singleton.mp hw
    exact nofun
  | cons c s ih =>
    rw [splitOnP_cons_eq_if_modifyHead] at hw
    split_ifs at hw with hc
    · rcases mem_cons.mp hw with rfl | hw
      · exact nofun
      · exact ih hw
    · obtain ⟨v, l, hl⟩ := exists_cons_of_ne_nil (splitOnP_ne_nil p s)
      rw [hl] at hw ih
      rcases mem_cons.mp hw with rfl | hw
      · exact forall_mem_cons.mpr ⟨Bool.not_eq_true _ ▸ hc, ih mem_cons_self⟩
      · exact ih (mem_cons_of_mem _ hw)

/-- The pieces that `getline` gives one after another. What follows the last separator is one only if it is not
empty. -/
def getlines (c : UInt8) (s : Bytes) : List Bytes :=
  if (s.splitOn c).getLast? = some [] then (s.splitOn c).dropLast else s.splitOn c

theorem getlines_unlines {lines : List Bytes} (h : ∀ l ∈ lines, 10 ∉ l) : getlines 10 (unlines lines) = lines := by
  have hsplit : (unlines lines).splitOn 10 = lines ++ [[]] := by
    simpa only [append_nil, splitOn_nil] using splitOn_unlines h []
  rw [getlines, hsplit, if_pos (by rw [getLast?_concat]), dropLast_concat]

def words : List Bytes := (s.splitOnP isSpace).filter (· ≠ [])

variable {c : UInt8}

theorem words_append_cons (hc : isSpace c = true) (a b : Bytes) : words (a ++ c :: b) = words a ++ words b := by
  rw [words, splitOnP_append_cons a b hc, filter_append]
  rfl

theorem words_word (hne : w ≠ []) (hw : ∀ c ∈ w, isSpace c = false) : words w = [w] := by
  rw [words, splitOnP_eq_singleton hw, filter_singleton, decide_eq_true hne, cond_true]

theorem words_intercalate (l : List Bytes) : words ([32].intercalate l) = l.flatMap words := by
  induction l with
  | nil => rfl
  | cons w l ih =>
    cases l with
    | nil => simp
    | cons w' l =>
      rw [intercalate_cons_cons, append_assoc, singleton_append, words_append_cons rfl, ih]
      rfl

theorem rdropWhile_append_of_all {t : Bytes} (w : Bytes) (h : ∀ c ∈ t, p c = true) :
    (w ++ t).rdropWhile p = w.rdropWhile p := by
  rw [rdropWhile, rdropWhile, reverse_append, dropWhile_append_of_pos fun c hc => h c (mem_reverse.mp hc)]

theorem rdropWhile_append_of_ne {t : Bytes} (w : Bytes) (h : t.rdropWhile p ≠ []) :
    (w ++ t).rdropWhile p = w ++ t.rdropWhile p := by
  have hne : t.reverse.dropWhile p ≠ [] := fun hnil => h (by rw [rdropWhile, hnil]; rfl)
  rw [rdropWhile, rdropWhile, reverse_append, dropWhile_append]
  split_ifs with hempty
  · exact absurd (isEmpty_iff.mp hempty) hne
  · rw [reverse_append, reverse_reverse]

theorem rdropWhile_token {t : Bytes} (hne : t ≠ []) (h : ∀ c ∈ t, p c = false) :
    (w ++ t).rdropWhile p = w ++ t := by
  rw [rdropWhile_eq_self_iff]
  intro _
  rw [getLast_append_of_ne_nil _ hne, h _ (getLast_mem hne)]
  exact Bool.false_ne_true

variable {n : Nat}

theorem mem_decimal (h : c ∈ decimal n) : 48 ≤ c.toNat ∧ c.toNat ≤ 57 := by
  obtain ⟨d, hd, rfl⟩ := mem_map.mp h
  have hdigit := isDigit_of_mem_toDigits (by decide) (by decide) hd
  simp only [Char.isDigit, Bool.and_eq_true, decide_eq_true_eq, ge_iff_le, UInt32.le_iff_toNat_le] at hdigit
  have hlow : 48 ≤ d.toNat := hdigit.1
  have hhigh : d.toNat ≤ 57 := hdigit.2
  rw [toUInt8, toNat_ofNat', mod_eq_of_lt (by omega)]
  exact ⟨hlow, hhigh⟩

theorem isDigit_of_mem_decimal (h : c ∈ decimal n) : isDigit c = true := by
  have hc := mem_decimal h
  simp only [isDigit, Bool.and_eq_true, decide_eq_true_eq, le_iff_toNat_le]
  exact hc

theorem isSpace_eq_false (h : 32 < c.toNat) : isSpace c = false := by
  simp only [isSpace, Bool.or_eq_false_iff, Bool.and_eq_false_iff, decide_eq_false_iff_not, le_iff_toNat_le,
    ← UInt8.toNat_inj, UInt8.reduceToNat]
  omega

theorem isSpace_of_mem_decimal (h : c ∈ decimal n) : isSpace c = false :=
  isSpace_eq_false (lt_of_lt_of_le (by decide) (mem_decimal h).1)

theorem decimal_ne_nil (n : Nat) : decimal n ≠ [] := by
  rw [decimal, ne_eq, map_eq_nil_iff]
  exact toDigits_ne_nil

theorem value_decimal (n : Nat) : value (decimal n) = n := by
  have hfold : ∀ (l : List Char) (m : Nat), (∀ c ∈ l, c.isDigit = true) →
      (l.map fun c => c.toNat.toUInt8).foldl (fun n c => 10 * n + (c.toNat - 48)) m = ofDigitChars 10 l m := by
    intro l
    induction l with
    | nil => intro m _; rfl
    | cons c l ih =>
      intro m hl
      have hc := hl c mem_cons_self
      simp only [Char.isDigit, Bool.and_eq_true, decide_eq_true_eq, ge_iff_le, UInt32.le_iff_toNat_le] at hc
      have hhigh : c.toNat ≤ 57 := hc.2
      have hsmall : c.toNat.toUInt8.toNat = c.toNat := by
        rw [toUInt8, toNat_ofNat', mod_eq_of_lt (by omega)]
      rw [map_cons, foldl_cons, ih _ fun d hd => hl d (mem_cons_of_mem c hd), hsmall, ofDigitChars_cons]
      rfl
  rw [value, decimal, hfold _ _ fun c hc => isDigit_of_mem_toDigits (by decide) (by decide) hc]
  exact ofDigitChars_ten_toDigits

theorem length_decimal_le {k : Nat} (hk : 0 < k) (h : n < 10 ^ k) : (decimal n).length ≤ k := by
  rw [decimal, length_map]
  exact (length_toDigits_le_iff (by decide) hk).mpr h

theorem sign_decimal (n : Nat) (rest : Bytes) :
    sign (skipSpace (decimal n ++ rest)) = (false, decimal n ++ rest) := by
  rw [skipSpace_append (decimal_ne_nil n) (fun c => isSpace_of_mem_decimal) rest]
  obtain ⟨c, l, hl⟩ := exists_cons_of_ne_nil (decimal_ne_nil n)
  have hc := mem_decimal (n := n) (hl ▸ mem_cons_self)
  rw [hl, cons_append, sign]
  · intro s hs
    obtain ⟨rfl, -⟩ := cons.inj hs
    exact absurd hc.1 (by decide)
  · intro s hs
    obtain ⟨rfl, -⟩ := cons.inj hs
    exact absurd hc.1 (by decide)

variable {rest : Bytes}

theorem extractNumber_decimal (hn : n < 2 ^ 64) (hrest : Delimited rest) :
    extractNumber (decimal n ++ rest) = some (UInt64.ofNat n, rest) := by
  have hall : ∀ c ∈ decimal n, isDigit c = true := fun c => isDigit_of_mem_decimal
  have hfits : ¬ (decimal n = [] ∨ 2 ^ 64 ≤ n) := by
    rw [not_or]
    exact ⟨decimal_ne_nil n, by omega⟩
  simp only [extractNumber, sign_decimal, takeWhile_token hall hrest rfl, dropWhile_token hall hrest rfl,
    value_decimal, if_neg hfits, Bool.false_eq_true, if_false]

theorem scanNumber_stop (hn : n < 2 ^ 64) (hrest : ∀ c ∈ rest.head?, isDigit c = false) :
    scanNumber (decimal n ++ rest) = some (UInt64.ofNat n, rest) := by
  have hall : ∀ c ∈ decimal n, isDigit c = true := fun c => isDigit_of_mem_decimal
  simp only [scanNumber, sign_decimal, takeWhile_stop hall hrest, dropWhile_stop hall hrest,
    value_decimal, if_neg (decimal_ne_nil n), if_neg (not_le.mpr hn), Bool.false_eq_true, if_false]

theorem scanNumber_decimal (hn : n < 2 ^ 64) (hrest : Delimited rest) :
    scanNumber (decimal n ++ rest) = some (UInt64.ofNat n, rest) :=
  scanNumber_stop hn fun c hc => hrest c hc ▸ rfl

end AeraRecovery.Lib.Text
