import AeraRecovery.Lib.Text

namespace AeraRecovery.FlashMounts

open Lib Bytes Text List UInt8

def msUnbindable : UInt64 := 131072

def msPrivate : UInt64 := 262144

def msShared : UInt64 := 1048576

structure FlashMount where
  device : UInt64
  root : Bytes
  target : Bytes
  options : Bytes
  type : Bytes
  source : Bytes
  superOptions : Bytes
  propagation : UInt64
deriving DecidableEq

def isOctal (c : UInt8) : Bool := 48 ≤ c && c ≤ 55

def decodeMountPath : Bytes → Bytes
  | 92 :: a :: b :: c :: s =>
    if isOctal a && isOctal b && isOctal c then
      ofNat ((a.toNat - 48) * 64 + (b.toNat - 48) * 8 + (c.toNat - 48)) :: decodeMountPath s
    else 92 :: decodeMountPath (a :: b :: c :: s)
  | c :: s => c :: decodeMountPath s
  | [] => []

/-- `sscanf` with `%u:%u%c`, which has to give two values. -/
def scanDevice (device : Bytes) : Option (UInt32 × UInt32) := do
  let (major, s) ← scanNumber (device.takeWhile (· ≠ 0))
  match s with
  | 58 :: s =>
    let (minor, s) ← scanNumber s
    if s = [] then some (major.toUInt32, minor.toUInt32) else none
  | _ => none

def readTags (shared slave : Bool) (propagation : UInt64) : List Bytes → Option (Bool × Bool × UInt64 × List Bytes)
  | [] => none
  | field :: row =>
    if field = ascii "-" then some (shared, slave, propagation, row)
    else
      readTags (shared || field.take 7 == ascii "shared:") (slave || field.take 7 == ascii "master:")
        (if field = ascii "unbindable" then msUnbindable else propagation) row

section

variable (makedev : UInt32 → UInt32 → UInt64)

/-- The rows of `ParseFlashMounts`, given by their words. `makedev` is that of the C library. -/
def parseRow : List Bytes → Option FlashMount
  | _id :: _parent :: device :: root :: target :: options :: fields => do
      let (major, minor) ← scanDevice device
      let (shared, slave, propagation, row) ← readTags false false msPrivate fields
      match row with
      | type :: source :: superOptions :: _ =>
        -- Shared and slave at once cannot be restored by flags, nor can the master of a slave.
        let propagation :=
          if shared && slave then 0 else if shared then msShared else if slave then 0 else propagation
        let m : FlashMount := {
          device := makedev major minor, root := decodeMountPath root, target := decodeMountPath target
          options, type, source := decodeMountPath source, superOptions, propagation }
        if m.root.head? ≠ some 47 ∨ m.target.head? ≠ some 47 then none else some m
      | _ => none
  | _ => none

def parseLines : List Bytes → List FlashMount → Bool × List FlashMount
  | [], mounts => (true, mounts)
  | line :: lines, mounts =>
    if line = [] then parseLines lines mounts
    else
      match parseRow makedev (words line) with
      | none => (false, mounts)
      | some m => parseLines lines (mounts ++ [m])

def parseFlashMounts (text : Bytes) : Bool × List FlashMount := parseLines makedev (getlines 10 text) []

end

/-- The bytes of `set` are printed as three octal digits. -/
def escapeByte (set : List UInt8) (c : UInt8) : Bytes :=
  if c ∈ set then [92, 48 + c / 64, 48 + c / 8 % 8, 48 + c % 8] else [c]

def escape (set : List UInt8) (s : Bytes) : Bytes := s.flatMap (escapeByte set)

def pathSet : List UInt8 := [32, 9, 10, 92]

def sourceSet : List UInt8 := [32, 9, 10, 92, 35]

structure Tags where
  shared : Option Nat
  master : Option Nat
  propagateFrom : Option Nat
  unbindable : Bool
deriving DecidableEq

namespace Tags

def fields (t : Tags) : List Bytes :=
  (t.shared.map fun n => ascii "shared:" ++ decimal n).toList ++
    (t.master.map fun n => ascii "master:" ++ decimal n).toList ++
    (t.propagateFrom.map fun n => ascii "propagate_from:" ++ decimal n).toList ++
    if t.unbindable then [ascii "unbindable"] else []

/-- The flags that give a mount its propagation back. There are none for a slave. -/
def propagation (t : Tags) : UInt64 :=
  if t.master.isSome then 0 else if t.shared.isSome then msShared else if t.unbindable then msUnbindable else msPrivate

end Tags

structure IsWord (w : Bytes) : Prop where
  nonempty : w ≠ []
  ink : ∀ c ∈ w, isSpace c = false

structure Row where
  id : Nat
  parent : Nat
  major : UInt32
  minor : UInt32
  root : Bytes
  target : Bytes
  options : Bytes
  tags : Tags
  type : Bytes
  source : Bytes
  superOptions : Bytes
  rootAbsolute : root.head? = some 47
  targetAbsolute : target.head? = some 47
  sourceNonempty : source ≠ []
  optionsWord : IsWord options
  typeWord : IsWord type
  superOptionsWord : IsWord superOptions

namespace Row

def fields (r : Row) : List Bytes :=
  [decimal r.id, decimal r.parent, decimal r.major.toNat ++ 58 :: decimal r.minor.toNat, escape pathSet r.root,
    escape pathSet r.target, r.options] ++ r.tags.fields ++
    [ascii "-", r.type, escape sourceSet r.source, r.superOptions]

def render (r : Row) : Bytes := [32].intercalate r.fields

def mount (makedev : UInt32 → UInt32 → UInt64) (r : Row) : FlashMount where
  device := makedev r.major r.minor
  root := r.root
  target := r.target
  options := r.options
  type := r.type
  source := r.source
  superOptions := r.superOptions
  propagation := r.tags.propagation

end Row

def mountinfo (table : List Row) : Bytes := unlines (table.map Row.render)

section

variable {set : List UInt8}

/-- A byte at which the stream ends a word although it is printed as it is. -/
def breaks (set : List UInt8) (c : UInt8) : Bool := isSpace c && !set.contains c

theorem toNat_octal (c : UInt8) :
    (48 + c / 64).toNat = 48 + c.toNat / 64 ∧ (48 + c / 8 % 8).toNat = 48 + c.toNat / 8 % 8 ∧
      (48 + c % 8).toNat = 48 + c.toNat % 8 := by
  have hc := c.toNat_lt
  simp only [UInt8.toNat_add, UInt8.toNat_div, UInt8.toNat_mod, UInt8.reduceToNat]
  omega

theorem octal_digits (c : UInt8) :
    isOctal (48 + c / 64) = true ∧ isOctal (48 + c / 8 % 8) = true ∧ isOctal (48 + c % 8) = true ∧
      ofNat (((48 + c / 64).toNat - 48) * 64 + ((48 + c / 8 % 8).toNat - 48) * 8 + ((48 + c % 8).toNat - 48)) =
        c := by
  have hc := c.toNat_lt
  obtain ⟨h₁, h₂, h₃⟩ := toNat_octal c
  simp only [isOctal, Bool.and_eq_true, decide_eq_true_eq, le_iff_toNat_le, UInt8.reduceToNat, h₁, h₂, h₃]
  refine ⟨by omega, by omega, by omega, ?_⟩
  rw [show (48 + c.toNat / 64 - 48) * 64 + (48 + c.toNat / 8 % 8 - 48) * 8 + (48 + c.toNat % 8 - 48) = c.toNat by omega]
  exact UInt8.ofNat_toNat

theorem isSpace_octal {c : UInt8} (h : isOctal c = true) : isSpace c = false := by
  simp only [isOctal, Bool.and_eq_true, decide_eq_true_eq, le_iff_toNat_le, UInt8.reduceToNat] at h
  exact isSpace_eq_false (by omega)

theorem decode_escape (hset : 92 ∈ set) (s : Bytes) : decodeMountPath (escape set s) = s := by
  induction s with
  | nil => rfl
  | cons c s ih =>
    rw [escape, flatMap_cons, escapeByte]
    split_ifs with hc
    · obtain ⟨h₁, h₂, h₃, hvalue⟩ := octal_digits c
      simp only [cons_append, nil_append, decodeMountPath, h₁, h₂, h₃, Bool.and_self, if_true]
      rw [hvalue, ← escape, ih]
    · have hne : c ≠ 92 := fun h => hc (h ▸ hset)
      rw [singleton_append, decodeMountPath, ← escape, ih]
      rintro - - - - rfl
      exact absurd rfl hne

theorem escapeByte_ne_nil (c : UInt8) : escapeByte set c ≠ [] := by
  rw [escapeByte]
  split_ifs <;> exact cons_ne_nil _ _

theorem escape_ne_nil {s : Bytes} : escape set s ≠ [] ↔ s ≠ [] := by
  cases s with
  | nil => exact Iff.rfl
  | cons c s =>
    refine iff_of_true (fun h => absurd ?_ (@escapeByte_ne_nil set c)) (cons_ne_nil _ _)
    exact (append_eq_nil_iff.mp h).1

theorem isSpace_escapeByte {c x : UInt8} (hc : breaks set c = false) (hx : x ∈ escapeByte set c) :
    isSpace x = false := by
  rw [escapeByte] at hx
  split_ifs at hx with hset
  · obtain ⟨h₁, h₂, h₃, -⟩ := octal_digits c
    simp only [mem_cons, not_mem_nil, or_false] at hx
    rcases hx with rfl | rfl | rfl | rfl
    · rfl
    · exact isSpace_octal h₁
    · exact isSpace_octal h₂
    · exact isSpace_octal h₃
  · obtain rfl := mem_singleton.mp hx
    simpa [breaks, hset] using hc

theorem splitOnP_escape (s : Bytes) :
    (escape set s).splitOnP isSpace = (s.splitOnP (breaks set)).map (escape set) := by
  induction s with
  | nil => rfl
  | cons c s ih =>
    rw [escape, flatMap_cons, ← escape, splitOnP_cons_eq_if_modifyHead]
    split_ifs with hc
    · have hspace := (Bool.and_eq_true_iff.mp hc).1
      have hset : c ∉ set := by simpa [breaks, hspace] using hc
      rw [escapeByte, if_neg hset, singleton_append, splitOnP_cons_eq_if_modifyHead, if_pos hspace, ih]
      rfl
    · rw [Bool.not_eq_true] at hc
      rw [splitOnP_append_of_forall_mem (fun x hx => isSpace_escapeByte hc hx), ih]
      cases s.splitOnP (breaks set) with
      | nil | cons w l => rfl

theorem not_breaks_of_word (hset : 92 ∈ set) {s w : Bytes} (hw : w ∈ words (escape set s)) (h : decodeMountPath w = s) :
    ∀ c ∈ s, breaks set c = false := by
  have hsplit := mem_of_mem_filter hw
  rw [splitOnP_escape, mem_map] at hsplit
  obtain ⟨v, hv, rfl⟩ := hsplit
  rw [decode_escape hset] at h
  exact h ▸ forall_mem_of_mem_splitOnP hv

theorem words_escape {s : Bytes} (hne : s ≠ []) (h : ∀ c ∈ s, breaks set c = false) :
    words (escape set s) = [escape set s] := by
  refine words_word (escape_ne_nil.mpr hne) fun x hx => ?_
  obtain ⟨c, hc, hx⟩ := mem_flatMap.mp hx
  exact isSpace_escapeByte (h c hc) hx

end

variable (o : Option Nat)

theorem readTags_shared (a b : Bool) (p : UInt64) (row : List Bytes) :
    readTags a b p ((o.map fun n => ascii "shared:" ++ decimal n).toList ++ row) = readTags (a || o.isSome) b p row := by
  cases o with
  | none => simp
  | some n => simp [readTags, ascii]

theorem readTags_master (a b : Bool) (p : UInt64) (row : List Bytes) :
    readTags a b p ((o.map fun n => ascii "master:" ++ decimal n).toList ++ row) = readTags a (b || o.isSome) p row := by
  cases o with
  | none => simp
  | some n => simp [readTags, ascii]

theorem readTags_propagateFrom (a b : Bool) (p : UInt64) (row : List Bytes) :
    readTags a b p ((o.map fun n => ascii "propagate_from:" ++ decimal n).toList ++ row) = readTags a b p row := by
  cases o with
  | none => simp
  | some n => simp [readTags, ascii]

theorem readTags_fields (t : Tags) (row : List Bytes) :
    readTags false false msPrivate (t.fields ++ ascii "-" :: row) =
      some (t.shared.isSome, t.master.isSome, if t.unbindable then msUnbindable else msPrivate, row) := by
  simp only [Tags.fields, append_assoc, readTags_shared, readTags_master, readTags_propagateFrom, Bool.false_or]
  cases t.unbindable with
  | false => simp [readTags]
  | true => simp [readTags, ascii]

theorem mem_device {major minor : Nat} {c : UInt8} (hc : c ∈ decimal major ++ 58 :: decimal minor) :
    48 ≤ c.toNat ∧ c.toNat ≤ 58 := by
  rcases mem_append.mp hc with hc | hc
  · have := mem_decimal hc
    omega
  · rcases mem_cons.mp hc with rfl | hc
    · decide
    · have := mem_decimal hc
      omega

theorem scanDevice_print (major minor : UInt32) :
    scanDevice (decimal major.toNat ++ 58 :: decimal minor.toNat) = some (major, minor) := by
  have hmajor := major.toNat_lt
  have hminor := minor.toNat_lt
  have hzero : (decimal major.toNat ++ 58 :: decimal minor.toNat).takeWhile (· ≠ 0) =
      decimal major.toNat ++ 58 :: decimal minor.toNat := by
    refine takeWhile_eq_self_iff.mpr fun c hc => decide_eq_true ?_
    rintro rfl
    exact absurd (mem_device hc).1 (by decide)
  rw [scanDevice, hzero, scanNumber_stop (by omega) (by simp [isDigit])]
  have hrest := @scanNumber_stop minor.toNat [] (by omega) (by simp)
  rw [append_nil] at hrest
  simp [hrest]

theorem isWord_decimal (n : Nat) : IsWord (decimal n) := ⟨decimal_ne_nil n, fun _ => isSpace_of_mem_decimal⟩

theorem isWord_device (major minor : Nat) : IsWord (decimal major ++ 58 :: decimal minor) := by
  refine ⟨append_ne_nil_of_right_ne_nil _ (cons_ne_nil _ _), fun c hc => ?_⟩
  have hc := mem_device hc
  exact isSpace_eq_false (by omega)

theorem IsWord.words_eq {w : Bytes} (h : IsWord w) : words w = [w] := words_word h.nonempty h.ink

theorem IsWord.append {v w : Bytes} (hv : IsWord v) (hw : IsWord w) : IsWord (v ++ w) := by
  refine ⟨append_ne_nil_of_left_ne_nil hv.nonempty _, fun c hc => ?_⟩
  rcases mem_append.mp hc with hc | hc
  · exact hv.ink c hc
  · exact hw.ink c hc

theorem Tags.isWord {t : Tags} {w : Bytes} (hw : w ∈ t.fields) : IsWord w := by
  have htag : ∀ tag : String, IsWord (ascii tag) → ∀ o : Option Nat,
      w ∈ (o.map fun n => ascii tag ++ decimal n).toList → IsWord w := by
    intro tag htag o hw
    obtain ⟨n, -, rfl⟩ := Option.map_eq_some_iff.mp (Option.mem_toList.mp hw)
    exact htag.append (isWord_decimal n)
  simp only [Tags.fields, mem_append] at hw
  rcases hw with ((hw | hw) | hw) | hw
  · exact htag "shared:" ⟨by decide, by decide +kernel⟩ _ hw
  · exact htag "master:" ⟨by decide, by decide +kernel⟩ _ hw
  · exact htag "propagate_from:" ⟨by decide, by decide +kernel⟩ _ hw
  · split_ifs at hw with h
    · obtain rfl := mem_singleton.mp hw
      exact ⟨by decide, by decide +kernel⟩
    · exact absurd hw not_mem_nil

theorem flatMap_words {l : List Bytes} (h : ∀ w ∈ l, IsWord w) : l.flatMap words = l := by
  induction l with
  | nil => rfl
  | cons w l ih =>
    rw [forall_mem_cons] at h
    rw [flatMap_cons, h.1.words_eq, ih h.2]
    rfl

theorem Row.words_render (r : Row) :
    words r.render = decimal r.id :: decimal r.parent :: (decimal r.major.toNat ++ 58 :: decimal r.minor.toNat) ::
      (words (escape pathSet r.root) ++ (words (escape pathSet r.target) ++ r.options :: (r.tags.fields ++
        ascii "-" :: r.type :: (words (escape sourceSet r.source) ++ [r.superOptions])))) := by
  have hhyphen : words (ascii "-") = [ascii "-"] := by decide
  rw [render, words_intercalate, fields]
  simp only [flatMap_append, flatMap_cons, flatMap_nil, (isWord_decimal _).words_eq,
    (isWord_device _ _).words_eq, r.optionsWord.words_eq, r.typeWord.words_eq, r.superOptionsWord.words_eq, hhyphen,
    flatMap_words fun w => Tags.isWord (t := r.tags), cons_append, nil_append]

/-- The kernel prints some white space of the stream as it is: vertical tab, form feed and carriage return. -/
def Row.Plain (r : Row) : Prop := ∀ c ∈ r.root ++ r.target ++ r.source, c ≠ 11 ∧ c ≠ 12 ∧ c ≠ 13

theorem breaks_eq_false_iff {set : List UInt8} (hin : 32 ∈ set ∧ 9 ∈ set ∧ 10 ∈ set)
    (hout : 11 ∉ set ∧ 12 ∉ set ∧ 13 ∉ set) (c : UInt8) : breaks set c = false ↔ c ≠ 11 ∧ c ≠ 12 ∧ c ≠ 13 := by
  have hspace : isSpace c = true → c = 32 ∨ c = 9 ∨ c = 10 ∨ c = 11 ∨ c = 12 ∨ c = 13 := by
    simp only [isSpace, Bool.or_eq_true, Bool.and_eq_true, decide_eq_true_eq, le_iff_toNat_le,
      ← UInt8.toNat_inj, UInt8.reduceToNat]
    omega
  simp only [breaks, Bool.and_eq_false_iff, Bool.not_eq_false', contains_iff_mem]
  constructor
  · rintro (h | h)
    · refine ⟨?_, ?_, ?_⟩ <;> rintro rfl <;> exact absurd h (by decide)
    · refine ⟨?_, ?_, ?_⟩ <;> rintro rfl
      · exact hout.1 h
      · exact hout.2.1 h
      · exact hout.2.2 h
  · rintro ⟨h₁, h₂, h₃⟩
    by_cases hc : isSpace c = true
    · rcases hspace hc with rfl | rfl | rfl | h | h | h
      · exact .inr hin.1
      · exact .inr hin.2.1
      · exact .inr hin.2.2
      · exact absurd h h₁
      · exact absurd h h₂
      · exact absurd h h₃
    · exact .inl (Bool.not_eq_true _ ▸ hc)

theorem breaks_pathSet (c : UInt8) : breaks pathSet c = false ↔ c ≠ 11 ∧ c ≠ 12 ∧ c ≠ 13 :=
  breaks_eq_false_iff (by decide) (by decide) c

theorem breaks_sourceSet (c : UInt8) : breaks sourceSet c = false ↔ c ≠ 11 ∧ c ≠ 12 ∧ c ≠ 13 :=
  breaks_eq_false_iff (by decide) (by decide) c

theorem Row.plain_iff (r : Row) : r.Plain ↔ (∀ c ∈ r.root, breaks pathSet c = false) ∧
    (∀ c ∈ r.target, breaks pathSet c = false) ∧ ∀ c ∈ r.source, breaks sourceSet c = false := by
  simp only [Plain, forall_mem_append, breaks_pathSet, breaks_sourceSet, and_assoc]

section

variable {makedev : UInt32 → UInt32 → UInt64}

theorem parseRow_eq_some {ws : List Bytes} {m : FlashMount} (h : parseRow makedev ws = some m) :
    ∃ id parent device root target options fields shared slave propagation type source superOptions more,
      ws = id :: parent :: device :: root :: target :: options :: fields ∧ readTags false false msPrivate fields =
        some (shared, slave, propagation, type :: source :: superOptions :: more) ∧
      m.root = decodeMountPath root ∧ m.target = decodeMountPath target ∧ m.source = decodeMountPath source := by
  unfold parseRow at h
  split at h
  · rename_i id parent device root target options fields
    obtain ⟨⟨major, minor⟩, -, h⟩ := Option.bind_eq_some_iff.mp h
    obtain ⟨⟨shared, slave, propagation, row⟩, htags, h⟩ := Option.bind_eq_some_iff.mp h
    dsimp only at h
    split at h
    · rename_i type source superOptions more
      split at h
      · cases h
      cases h
      exact ⟨_, _, _, _, _, _, _, _, _, _, _, _, _, _, rfl, htags, rfl, rfl, rfl⟩
    · cases h
  · cases h

theorem ne_nil_of_absolute {s : Bytes} (h : s.head? = some 47) : s ≠ [] := by
  rintro rfl
  cases h

theorem words_of_absolute {s : Bytes} (h : s.head? = some 47) : ∃ w ws, words (escape pathSet s) = w :: ws := by
  cases s with
  | nil => cases h
  | cons c s =>
    obtain rfl := Option.some.inj h
    obtain ⟨v, l, hl⟩ := exists_cons_of_ne_nil (splitOnP_ne_nil (breaks pathSet) s)
    refine ⟨escape pathSet (47 :: v), (l.map (escape pathSet)).filter (· ≠ []), ?_⟩
    rw [words, splitOnP_escape, splitOnP_cons_eq_if_modifyHead, if_neg (by decide), hl]
    rfl

theorem parseRow_render (r : Row) : parseRow makedev (words r.render) = some (r.mount makedev) ↔ r.Plain := by
  rw [r.words_render, Row.plain_iff]
  constructor
  · intro h
    obtain ⟨id, parent, device, root, target, options, fields, shared, slave, propagation, type, source, superOptions,
      more, hwords, htags, hroot, htarget, hsource⟩ := parseRow_eq_some h
    obtain ⟨w, ws, hw⟩ := words_of_absolute r.rootAbsolute
    simp only [cons.injEq] at hwords
    obtain ⟨-, -, -, hwords⟩ := hwords
    have hrootPlain : ∀ c ∈ r.root, breaks pathSet c = false := by
      rw [hw] at hwords
      obtain ⟨rfl, -⟩ := cons.inj hwords
      exact not_breaks_of_word (by decide) (hw ▸ mem_cons_self) hroot.symm
    rw [words_escape (ne_nil_of_absolute r.rootAbsolute) hrootPlain, singleton_append] at hwords
    obtain ⟨-, hwords⟩ := cons.inj hwords
    obtain ⟨w, ws, hw⟩ := words_of_absolute r.targetAbsolute
    have htargetPlain : ∀ c ∈ r.target, breaks pathSet c = false := by
      rw [hw] at hwords
      obtain ⟨rfl, -⟩ := cons.inj hwords
      exact not_breaks_of_word (by decide) (hw ▸ mem_cons_self) htarget.symm
    rw [words_escape (ne_nil_of_absolute r.targetAbsolute) htargetPlain, singleton_append] at hwords
    obtain ⟨-, -, rfl⟩ := hwords
    rw [readTags_fields] at htags
    simp only [Option.some.injEq, Prod.mk.injEq, cons.injEq] at htags
    refine ⟨hrootPlain, htargetPlain, not_breaks_of_word (by decide) (w := source) ?_ hsource.symm⟩
    -- If the stream found no word in the source, the options would be its last word.
    cases hw : words (escape sourceSet r.source) with
    | nil => simp [hw] at htags
    | cons w ws =>
      rw [hw] at htags
      exact (cons.inj htags.2.2.2.2).1 ▸ mem_cons_self
  · rintro ⟨hroot, htarget, hsource⟩
    rw [words_escape (ne_nil_of_absolute r.rootAbsolute) hroot, words_escape (ne_nil_of_absolute r.targetAbsolute) htarget,
      words_escape r.sourceNonempty hsource]
    have habsolute : ¬ (r.root.head? ≠ some 47 ∨ r.target.head? ≠ some 47) := by
      simp [r.rootAbsolute, r.targetAbsolute]
    have hpropagation : (if (r.tags.shared.isSome && r.tags.master.isSome) = true then 0
        else if r.tags.shared.isSome = true then msShared else if r.tags.master.isSome = true then 0
        else if r.tags.unbindable then msUnbindable else msPrivate) = r.tags.propagation := by
      rw [Tags.propagation]
      cases r.tags.shared <;> cases r.tags.master <;> rfl
    simp only [singleton_append, parseRow, scanDevice_print, readTags_fields, Option.bind_eq_bind, Option.bind_some,
      decode_escape (show 92 ∈ pathSet by decide), decode_escape (show 92 ∈ sourceSet by decide), if_neg habsolute,
      hpropagation]
    rfl

theorem Row.render_ne_nil (r : Row) : r.render ≠ [] := by
  intro h
  have hwords := r.words_render
  rw [h] at hwords
  exact absurd hwords (cons_ne_nil _ _).symm

theorem parseLines_eq {lines : List Bytes} (hlines : ∀ l ∈ lines, l ≠ []) {mounts out : List FlashMount} :
    parseLines makedev lines mounts = (true, out) ↔
      ∃ read, lines.map (fun l => parseRow makedev (words l)) = read.map some ∧ out = mounts ++ read := by
  induction lines generalizing mounts with
  | nil =>
    constructor
    · intro h
      exact ⟨[], rfl, by rw [append_nil]; exact (congrArg Prod.snd h).symm⟩
    · rintro ⟨read, hread, rfl⟩
      obtain rfl := map_eq_nil_iff.mp hread.symm
      rw [append_nil]
      rfl
  | cons l lines ih =>
    rw [forall_mem_cons] at hlines
    rw [parseLines, if_neg hlines.1, map_cons]
    cases parseRow makedev (words l) with
    | none =>
      refine iff_of_false nofun ?_
      rintro ⟨_ | ⟨m, read⟩, hread, -⟩ <;> cases hread
    | some m =>
      simp only [ih hlines.2]
      constructor
      · rintro ⟨read, hread, rfl⟩
        exact ⟨m :: read, congrArg _ hread, append_assoc ..⟩
      · rintro ⟨_ | ⟨m', read⟩, hread, rfl⟩
        · cases hread
        · obtain ⟨hm, hrest⟩ := cons.inj hread
          cases hm
          exact ⟨read, hrest, append_cons ..⟩

theorem not_mem_intercalate {l : List Bytes} (h : ∀ w ∈ l, 10 ∉ w) : 10 ∉ [32].intercalate l := by
  induction l with
  | nil => exact not_mem_nil
  | cons w l ih =>
    rw [forall_mem_cons] at h
    cases l with
    | nil => simpa using h.1
    | cons w' l =>
      rw [intercalate_cons_cons, mem_append, mem_append, mem_singleton]
      rintro ((hw | hw) | hw)
      · exact h.1 hw
      · exact absurd hw (by decide)
      · exact ih h.2 hw

theorem not_mem_escape {set : List UInt8} (hset : 10 ∈ set) (s : Bytes) : 10 ∉ escape set s := by
  intro h
  obtain ⟨c, -, hc⟩ := mem_flatMap.mp h
  by_cases hmem : c ∈ set
  · exact absurd (isSpace_escapeByte (by simp [breaks, hmem]) hc) (by decide)
  · rw [escapeByte, if_neg hmem] at hc
    exact hmem (mem_singleton.mp hc ▸ hset)

theorem IsWord.not_mem {w : Bytes} (h : IsWord w) : 10 ∉ w := fun hw => absurd (h.ink 10 hw) (by decide)

theorem Row.not_mem_render (r : Row) : 10 ∉ r.render := by
  refine not_mem_intercalate fun w hw => ?_
  simp only [fields, mem_append, mem_cons, not_mem_nil, or_false] at hw
  rcases hw with ((rfl | rfl | rfl | rfl | rfl | rfl) | hw) | rfl | rfl | rfl | rfl
  · exact (isWord_decimal _).not_mem
  · exact (isWord_decimal _).not_mem
  · exact (isWord_device _ _).not_mem
  · exact not_mem_escape (by decide) _
  · exact not_mem_escape (by decide) _
  · exact r.optionsWord.not_mem
  · exact (Tags.isWord hw).not_mem
  · decide
  · exact r.typeWord.not_mem
  · exact not_mem_escape (by decide) _
  · exact r.superOptionsWord.not_mem

/-- A printed table is read as it is exactly if its paths and sources are free of vertical tabs, form feeds and carriage
returns. -/
theorem mountinfo_read (table : List Row) :
    parseFlashMounts makedev (mountinfo table) = (true, table.map (Row.mount makedev)) ↔ ∀ r ∈ table, r.Plain := by
  have hlines : ∀ l ∈ table.map Row.render, l ≠ [] := forall_mem_map.mpr fun r _ => r.render_ne_nil
  have hnewline : ∀ l ∈ table.map Row.render, 10 ∉ l := forall_mem_map.mpr fun r _ => r.not_mem_render
  rw [parseFlashMounts, mountinfo, getlines_unlines hnewline, parseLines_eq hlines]
  simp only [nil_append, exists_eq_right', map_map, map_inj_left, Function.comp_apply, parseRow_render]

end

def sampleRow : Row where
  id := 41
  parent := 1
  major := 8
  minor := 3
  root := ascii "/"
  target := ascii "/mnt/a\rb"
  options := ascii "rw"
  tags := ⟨none, none, none, false⟩
  type := ascii "ext4"
  source := ascii "/dev/block/sda3"
  superOptions := ascii "rw"
  rootAbsolute := by decide
  targetAbsolute := by decide
  sourceNonempty := by decide
  optionsWord := ⟨by decide, by decide +kernel⟩
  typeWord := ⟨by decide, by decide +kernel⟩
  superOptionsWord := ⟨by decide, by decide +kernel⟩

def sampleMakedev (major minor : UInt32) : UInt64 := major.toUInt64 * 256 + minor.toUInt64

/-- A mount at a path with a carriage return is read as one at another path. -/
theorem mountinfo_misread :
    parseFlashMounts sampleMakedev (mountinfo [sampleRow]) = (true, [{ sampleRow.mount sampleMakedev with
      target := ascii "/mnt/a", options := ascii "b" }]) ∧
    parseFlashMounts sampleMakedev (mountinfo [sampleRow]) ≠ (true, [sampleRow.mount sampleMakedev]) := by
  decide +kernel

end AeraRecovery.FlashMounts
