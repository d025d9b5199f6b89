import AeraRecovery.Lib.SortedMap
import AeraRecovery.Lib.Text

namespace AeraRecovery

open Lib Bytes Text List Option Nat

/-- An `InfoManager` without the name of its file. `fileVersion` has the bits of an `int`. -/
structure InfoManager where
  values : SortedMap Bytes Bytes := .empty
  fileVersion : UInt32 := 0
  isConst : Bool := false

namespace InfoManager

variable (m : InfoManager)

/-- `SetValue`. A name that it refuses gives `none`. -/
def setValue (name value : Bytes) : Option InfoManager :=
  if name = [] || name.head?.any isDigit then none
  else match m.values.find name with
    | none => some { m with values := m.values.insert name value }
    | some _ => if m.isConst then some m else some { m with values := m.values.insert name value }

/-- Calls of `SetValue` that are all accepted. -/
def setValues (calls : List (Bytes × Bytes)) : Option InfoManager :=
  calls.foldlM (fun m c => m.setValue c.1 c.2) m

def le16Bytes (n : Nat) : Bytes := [n.toUInt8, (n / 256).toUInt8]

def le32Bytes (n : Nat) : Bytes := le16Bytes n ++ le16Bytes (n / 65536)

/-- A string with its final zero after its length, which is an `unsigned short`. -/
def writeString (s : Bytes) : Bytes :=
  let length := (s.length % 65536 + 1) % 65536
  le16Bytes length ++ (s ++ [0]).take length

def writeEntry (e : Bytes × Bytes) : Bytes := writeString e.1 ++ writeString e.2

/-- What happens to the file of `SaveValues`. -/
structure Output where
  fastboot : Bool := false
  opens : Bool := true
  writes : Bool := true

def contents : Bytes :=
  (if m.fileVersion = 0 then [] else le32Bytes m.fileVersion.toNat) ++ m.values.entries.flatMap writeEntry

def saveValues (file : Bytes) (out : Output) : Option Bytes :=
  if out.fastboot || file = [] || !out.opens || !out.writes then none else some m.contents

def readString (s : Bytes) : Option (Bytes × Bytes) := do
  let (head, s) ← readExact 2 s
  if le16 head 0 ≥ 512 then none
  else
    let (array, s) ← readExact (le16 head 0) s
    return (array.takeWhile (· ≠ 0), s)

def readEntry (s : Bytes) : Option ((Bytes × Bytes) × Bytes) := do
  let (name, s) ← readString s
  let (value, s) ← readString s
  return ((name, value), s)

/-- The loop of `LoadValues`, which ends where an entry cannot be read. -/
def readEntries : Nat → SortedMap Bytes Bytes → Bytes → SortedMap Bytes Bytes
  | 0, values, _ => values
  | fuel + 1, values, s =>
    match readEntry s with
    | none => values
    | some (e, s) => readEntries fuel (values.insert e.1 e.2) s

/-- `LoadValues` of a file that exists. An entry has at least four bytes. -/
def loadValues (file : Bytes) : InfoManager :=
  if m.fileVersion = 0 then { m with values := readEntries file.length m.values file }
  else match readExact 4 file with
    | none => m
    | some (head, s) =>
      if le32 head 0 = m.fileVersion.toNat then { m with values := readEntries file.length m.values s } else m

section

variable {s rest t : Bytes} {n : Nat}

theorem le16_le16Bytes (h : n < 65536) : le16 (le16Bytes n) 0 = n := by
  simp only [le16, byte, le16Bytes, getD_cons_zero, getD_cons_succ, zero_add, toUInt8, UInt8.toNat_ofNat']
  omega

theorem le32_le32Bytes (h : n < 2 ^ 32) : le32 (le32Bytes n) 0 = n := by
  simp only [le32, le16, byte, le32Bytes, le16Bytes, cons_append, nil_append, getD_cons_zero,
    getD_cons_succ, zero_add, toUInt8, UInt8.toNat_ofNat']
  omega

theorem readString_le16Bytes (h : n < 65536) : readString (le16Bytes n ++ rest) =
    if n ≥ 512 then none else (readExact n rest).map fun r => (r.1.takeWhile (· ≠ 0), r.2) := by
  have hhead : readExact 2 (le16Bytes n ++ rest) = some (le16Bytes n, rest) :=
    readExact_eq_some_iff.mpr ⟨rfl, rfl⟩
  rw [readString, hhead]
  simp only [bind_eq_bind, bind_some, le16_le16Bytes h]
  split_ifs
  · rfl
  · cases readExact n rest with
    | none | some r => rfl

theorem takeWhile_zero (h : 0 ∉ s) : (s ++ [0]).takeWhile (· ≠ 0) = s := by
  have hs : ∀ c ∈ s, decide (c ≠ 0) = true := fun c hc => decide_eq_true fun heq => h (heq ▸ hc)
  rw [takeWhile_append_of_pos hs]
  exact append_nil s

theorem readString_writeString (h : s.length ≤ 510) (hzero : 0 ∉ s) :
    readString (writeString s ++ rest) = some (s, rest) := by
  have hlength : (s.length % 65536 + 1) % 65536 = s.length + 1 := by omega
  have hread : readExact (s.length + 1) (s ++ [0] ++ rest) = some (s ++ [0], rest) :=
    readExact_eq_some_iff.mpr ⟨length_append, rfl⟩
  rw [writeString, hlength, take_of_length_le (by rw [length_append]; rfl), append_assoc,
    readString_le16Bytes (by omega), if_neg (by omega), hread, map_some, takeWhile_zero hzero]

theorem readString_writeString_long (h : s.length = 511) : readString (writeString s ++ rest) = none := by
  have hlength : (s.length % 65536 + 1) % 65536 = 512 := by omega
  rw [writeString, hlength, append_assoc, readString_le16Bytes (by omega), if_pos (le_refl 512)]

theorem length_readString (h : readString s = some (t, rest)) : t.length ≤ 511 := by
  obtain ⟨⟨head, s₁⟩, -, h⟩ := bind_eq_some_iff.mp h
  dsimp only at h
  split_ifs at h with hlong
  obtain ⟨⟨array, s₂⟩, harray, h⟩ := bind_eq_some_iff.mp h
  cases h
  have hle := (array.takeWhile_sublist (fun c => decide (c ≠ 0))).length_le
  have harray := (readExact_eq_some_iff.mp harray).1
  dsimp only
  omega

end

section

variable {e : Bytes × Bytes} {l : List (Bytes × Bytes)} {s rest : Bytes} {values : SortedMap Bytes Bytes} {fuel : Nat}

def Fits (e : Bytes × Bytes) : Prop := e.1.length ≤ 510 ∧ e.2.length ≤ 510

instance (e : Bytes × Bytes) : Decidable (Fits e) := inferInstanceAs (Decidable (_ ∧ _))

theorem readEntry_writeEntry (h : Fits e) (hname : 0 ∉ e.1) (hvalue : 0 ∉ e.2) :
    readEntry (writeEntry e ++ rest) = some (e, rest) := by
  rw [readEntry, writeEntry, append_assoc, readString_writeString h.1 hname]
  simp only [bind_eq_bind, bind_some, readString_writeString h.2 hvalue]
  rfl

theorem readEntry_writeEntry_long (rest : Bytes) (hname : e.1.length ≤ 511) (hvalue : e.2.length ≤ 511) (hzero : 0 ∉ e.1)
    (h : ¬ Fits e) : readEntry (writeEntry e ++ rest) = none := by
  rw [readEntry, writeEntry, append_assoc]
  by_cases hlong : e.1.length = 511
  · rw [readString_writeString_long hlong]
    rfl
  · have hlong' : e.2.length = 511 := by
      rw [Fits] at h
      omega
    rw [readString_writeString (by omega) hzero]
    simp only [bind_eq_bind, bind_some, readString_writeString_long hlong']
    rfl

theorem length_readEntry (h : readEntry s = some (e, rest)) : e.1.length ≤ 511 ∧ e.2.length ≤ 511 := by
  obtain ⟨⟨name, s₁⟩, hname, h⟩ := bind_eq_some_iff.mp h
  obtain ⟨⟨value, s₂⟩, hvalue, h⟩ := bind_eq_some_iff.mp h
  cases h
  exact ⟨length_readString hname, length_readString hvalue⟩

theorem length_readEntries (h : e ∈ (readEntries fuel values s).entries) :
    e ∈ values.entries ∨ e.1.length ≤ 511 ∧ e.2.length ≤ 511 := by
  induction fuel generalizing values s with
  | zero => exact .inl h
  | succ fuel ih =>
    rw [readEntries] at h
    split at h
    · exact .inl h
    · rename_i d rest hread
      rcases ih h with hmem | hlength
      · rcases SortedMap.mem_insertEntry hmem with rfl | hold
        · exact .inr (length_readEntry hread)
        · exact .inl hold
      · exact .inr hlength

theorem readEntries_append (values : SortedMap Bytes Bytes) (hvalid : ∀ e ∈ l, Fits e ∧ 0 ∉ e.1 ∧ 0 ∉ e.2)
    (hrest : readEntry rest = none) (hsorted : (values.entries ++ l).Pairwise fun a b => a.1 < b.1) (hfuel : l.length ≤ fuel) :
    (readEntries fuel values (l.flatMap writeEntry ++ rest)).entries = values.entries ++ l := by
  induction l generalizing values fuel with
  | nil =>
    cases fuel with
    | zero => exact (append_nil _).symm
    | succ fuel =>
      rw [flatMap_nil, nil_append, readEntries, hrest]
      exact (append_nil _).symm
  | cons e l ih =>
    obtain ⟨⟨hfits, hname, hvalue⟩, hl⟩ := forall_mem_cons.mp hvalid
    cases fuel with
    | zero => exact absurd hfuel (not_succ_le_zero _)
    | succ fuel =>
      have hlast : ∀ d ∈ values.entries, d.1 < e.1 :=
        fun d hd => (pairwise_append.mp hsorted).2.2 d hd e mem_cons_self
      have hinsert : (values.insert e.1 e.2).entries = values.entries ++ [e] :=
        SortedMap.insertEntry_of_forall_lt hlast
      rw [flatMap_cons, append_assoc, readEntries, readEntry_writeEntry hfits hname hvalue]
      rw [ih _ hl (by rw [hinsert, append_assoc]; exact hsorted) (le_of_succ_le_succ hfuel), hinsert,
        append_assoc]
      rfl

theorem length_le_flatMap : l.length ≤ (l.flatMap writeEntry).length := by
  induction l with
  | nil => exact le_refl 0
  | cons e l ih =>
    have hlength : 0 < (writeEntry e).length := zero_lt_succ _
    rw [flatMap_cons, length_cons, length_append]
    omega

end

variable {m m' : InfoManager} {isConst : Bool}

theorem length_entries_le : m.values.entries.length ≤ m.contents.length := by
  rw [contents, length_append]
  exact le_add_left_of_le length_le_flatMap

theorem values_loadValues (isConst : Bool) :
    (loadValues { fileVersion := m.fileVersion, isConst := isConst } m.contents).values =
      readEntries m.contents.length .empty (m.values.entries.flatMap writeEntry) := by
  rw [loadValues]
  by_cases hversion : m.fileVersion = 0
  · rw [if_pos hversion, contents, if_pos hversion]
    rfl
  · have hread : readExact 4 m.contents =
        some (le32Bytes m.fileVersion.toNat, m.values.entries.flatMap writeEntry) := by
      rw [contents, if_neg hversion]
      exact readExact_eq_some_iff.mpr ⟨rfl, rfl⟩
    rw [if_neg hversion, hread]
    dsimp only
    rw [if_pos (le32_le32Bytes m.fileVersion.toNat_lt)]

def ZeroFree (m : InfoManager) : Prop := ∀ e ∈ m.values.entries, 0 ∉ e.1 ∧ 0 ∉ e.2

theorem zeroFree_setValue {name value : Bytes} (h : m.ZeroFree) (hname : 0 ∉ name) (hvalue : 0 ∉ value)
    (hset : m.setValue name value = some m') : m'.ZeroFree := by
  have hinsert : ZeroFree { m with values := m.values.insert name value } := by
    intro e he
    rcases SortedMap.mem_insertEntry he with rfl | hold
    · exact ⟨hname, hvalue⟩
    · exact h e hold
  rw [setValue] at hset
  cases hfind : m.values.find name with
  | none =>
    rw [hfind] at hset
    dsimp only at hset
    split_ifs at hset
    cases hset
    exact hinsert
  | some old =>
    rw [hfind] at hset
    split_ifs at hset
    · cases hset
      exact h
    · cases hset
      exact hinsert

theorem zeroFree_of_calls {calls : List (Bytes × Bytes)} (h : m.ZeroFree) (hcalls : ∀ c ∈ calls, 0 ∉ c.1 ∧ 0 ∉ c.2)
    (hbuilt : m.setValues calls = some m') : m'.ZeroFree := by
  induction calls generalizing m with
  | nil =>
    cases hbuilt
    exact h
  | cons c calls ih =>
    obtain ⟨hc, hcalls⟩ := forall_mem_cons.mp hcalls
    obtain ⟨next, hnext, hrest⟩ := bind_eq_some_iff.mp hbuilt
    exact ih (zeroFree_setValue h hc.1 hc.2 hnext) hcalls hrest

theorem entries_loadValues (h : m.ZeroFree) (isConst : Bool) (hfits : ∀ e ∈ m.values.entries, Fits e) :
    (loadValues { fileVersion := m.fileVersion, isConst := isConst } m.contents).values = m.values := by
  have hend : readEntry [] = none := rfl
  have hread := readEntries_append .empty (fun e he => ⟨hfits e he, h e he⟩) hend m.values.sorted length_entries_le
  rw [append_nil] at hread
  rw [values_loadValues]
  exact SortedMap.ext hread

theorem fits_of_loadValues (h : m.ZeroFree)
    (hload : (loadValues { fileVersion := m.fileVersion, isConst := isConst } m.contents).values = m.values) :
    ∀ e ∈ m.values.entries, Fits e := by
  rw [values_loadValues] at hload
  have hbound : ∀ e ∈ m.values.entries, e.1.length ≤ 511 ∧ e.2.length ≤ 511 := by
    intro e he
    rw [← hload] at he
    exact (length_readEntries he).resolve_left not_mem_nil
  by_contra hnot
  have hfirst : (m.values.entries.find? fun e => ¬ Fits e).isSome = true := by
    rw [find?_isSome]
    simp only [not_forall, exists_prop] at hnot
    obtain ⟨e, he, hfits⟩ := hnot
    exact ⟨e, he, decide_eq_true hfits⟩
  obtain ⟨e, hfind⟩ := isSome_iff_exists.mp hfirst
  -- The reader stops at the first entry that does not fit, and this entry is missing.
  obtain ⟨hlong, l, l', hsplit, hl⟩ := find?_eq_some_iff_append.mp hfind
  have he : e ∈ m.values.entries := mem_of_find?_eq_some hfind
  have hmem : ∀ d ∈ l, d ∈ m.values.entries := fun d hd => hsplit ▸ mem_append_left _ hd
  have hstop := readEntry_writeEntry_long (l'.flatMap writeEntry) (hbound e he).1 (hbound e he).2 (h e he).1
    (of_decide_eq_true hlong)
  have hsorted : l.Pairwise fun a b => a.1 < b.1 := (pairwise_append.mp (hsplit ▸ m.values.sorted)).1
  have hfuel : l.length ≤ m.contents.length := by
    have hall := length_entries_le (m := m)
    rw [hsplit, length_append] at hall
    omega
  have hread := readEntries_append .empty (fun d hd => ⟨by simpa using hl d hd, h d (hmem d hd)⟩) hstop
    hsorted hfuel
  have hentries : m.values.entries = l := by
    rw [← hload, hsplit, flatMap_append, flatMap_cons]
    exact hread
  rw [hentries] at hsplit
  have hlength := congrArg length hsplit
  rw [length_append, length_cons] at hlength
  omega

/-- The values that calls of `SetValue` have made are loaded from the saved file exactly if no name and no value has
more than 510 bytes. -/
theorem loadValues_saveValues {calls : List (Bytes × Bytes)} {version : UInt32} {isConst isConst' : Bool} {m : InfoManager}
    {file bytes : Bytes} {out : Output} (hcalls : ∀ c ∈ calls, 0 ∉ c.1 ∧ 0 ∉ c.2)
    (hbuilt : setValues { fileVersion := version, isConst := isConst } calls = some m)
    (hsave : m.saveValues file out = some bytes) :
    (loadValues { fileVersion := m.fileVersion, isConst := isConst' } bytes).values = m.values ↔
      ∀ e ∈ m.values.entries, e.1.length ≤ 510 ∧ e.2.length ≤ 510 := by
  have hzero : m.ZeroFree := zeroFree_of_calls (fun _ he => absurd he not_mem_nil) hcalls hbuilt
  rw [saveValues] at hsave
  split_ifs at hsave
  cases hsave
  exact ⟨fits_of_loadValues hzero, entries_loadValues hzero isConst'⟩

def sample : InfoManager where
  values := ⟨[(ascii "tw_a", []), (ascii "tw_b", ascii "2")], by decide⟩
  fileVersion := 65536

theorem loadValues_saveValues_sample :
    setValues { fileVersion := 65536 } [(ascii "tw_b", ascii "1"), (ascii "tw_a", []), (ascii "tw_b", ascii "2")] =
        some sample ∧ sample.saveValues (ascii "f") {} = some sample.contents ∧
      (loadValues { fileVersion := 65536 } sample.contents).values = sample.values := by
  have hbuilt : setValues { fileVersion := 65536 }
      [(ascii "tw_b", ascii "1"), (ascii "tw_a", []), (ascii "tw_b", ascii "2")] = some sample := rfl
  have hsave : sample.saveValues (ascii "f") {} = some sample.contents := rfl
  exact ⟨hbuilt, hsave, (loadValues_saveValues (by decide) hbuilt hsave).mpr (by decide)⟩

def longValues : InfoManager where
  values := ⟨[([97], replicate 511 120), ([98], [49])], pairwise_pair.mpr (by decide)⟩

theorem loadValues_loses : setValues {} [([97], replicate 511 120), ([98], [49])] = some longValues ∧
      longValues.saveValues (ascii "f") {} = some longValues.contents ∧
      (loadValues {} longValues.contents).values.entries = [] := by
  have hstop : readEntry (longValues.values.entries.flatMap writeEntry) = none := by
    refine readEntry_writeEntry_long _ (by decide) (le_of_eq length_replicate) (by decide) fun h => ?_
    have hvalue := h.2
    rw [length_replicate] at hvalue
    omega
  refine ⟨rfl, rfl, ?_⟩
  exact readEntries_append (l := []) .empty nofun hstop Pairwise.nil (zero_le _)

end InfoManager

end AeraRecovery
