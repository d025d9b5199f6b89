import AeraRecovery.Lib.Bytes

namespace AeraRecovery.TarBackup

open Lib Bytes List

/-- The types of a directory entry, `DT_DIR` and `DT_UNKNOWN` apart. -/
inductive FileType
  | reg | lnk | blk | chr | fifo | sock
  deriving DecidableEq

abbrev Identity := Nat × Nat

local instance lawfulBEqIdentity : LawfulBEq Identity := inferInstance

/-- What `readdir` gives for a directory, in its order, with everything below. The entries `.` and `..`, which every
exclusion set skips, are left out. -/
inductive Listing
  | nil
  | file (name : Bytes) (type : FileType) (size : Nat) (rest : Listing)
  | directory (name : Bytes) (identity : Identity) (contents rest : Listing)

inductive Entry
  | file (type : FileType) (size : Nat)
  | directory (identity : Identity) (contents : Listing)

namespace Listing

def entries : Listing → List (Bytes × Entry)
  | nil => []
  | file name type size rest => (name, .file type size) :: rest.entries
  | directory name identity contents rest => (name, .directory identity contents) :: rest.entries

def names (l : Listing) : List Bytes := l.entries.map Prod.fst

def Proper (name : Bytes) : Prop := name ≠ [] ∧ 47 ∉ name

instance (name : Bytes) : Decidable (Proper name) := inferInstanceAs (Decidable (_ ∧ _))

def WellFormed : Listing → Prop
  | nil => True
  | file name _ _ rest => Proper name ∧ name ∉ rest.names ∧ rest.WellFormed
  | directory name _ contents rest => Proper name ∧ name ∉ rest.names ∧ contents.WellFormed ∧ rest.WellFormed

end Listing

open Listing

structure Tree where
  listing : Listing
  wellFormed : listing.WellFormed

def join (path name : Bytes) : Bytes := path ++ 47 :: name

structure TWExclude where
  relativedir : List Bytes
  absolutedir : List Bytes
  directoryIdentities : List Identity

def removeTrailingSlashes : Bytes → Bytes
  | [] => []
  | [c] => if c = 47 then [] else [c]
  | c :: d :: rest =>
    if c = 47 ∧ d = 47 then removeTrailingSlashes (d :: rest) else c :: removeTrailingSlashes (d :: rest)

namespace TWExclude

variable (x : TWExclude)

def checkRelativeSkipDirs (dir : Bytes) : Bool := dir ∈ x.relativedir

def checkAbsoluteSkipDirs (path : Bytes) (identity : Option Identity) : Bool :=
  if path ∈ x.absolutedir then true else identity.any (· ∈ x.directoryIdentities)

def checkSkipDirs (path : Bytes) (identity : Option Identity) : Bool :=
  let normalized := removeTrailingSlashes path
  let last := normalized.rtakeWhile (· ≠ 47)
  if 47 ∈ normalized ∧ last ≠ [] ∧ x.checkRelativeSkipDirs last then true
  else x.checkAbsoluteSkipDirs normalized identity

def Excluded (path name : Bytes) (identity : Option Identity) : Prop :=
  name ∈ x.relativedir ∨ removeTrailingSlashes (join path name) ∈ x.absolutedir ∨
    ∃ i ∈ identity, i ∈ x.directoryIdentities

end TWExclude

variable {name : Bytes}

theorem removeTrailingSlashes_of_not_mem (h : 47 ∉ name) : removeTrailingSlashes name = name := by
  fun_induction removeTrailingSlashes name with
  | case1 => rfl
  | case2 => exact absurd mem_cons_self h
  | case3 => rfl
  | case4 c d rest hslashes => exact absurd (hslashes.1 ▸ mem_cons_self) h
  | case5 c d rest hslashes ih => rw [ih fun hmem => h (mem_cons_of_mem _ hmem)]

theorem removeTrailingSlashes_join (h : Proper name) (path : Bytes) :
    ∃ front, removeTrailingSlashes (join path name) = join front name := by
  obtain ⟨hne, hslash⟩ := h
  induction path with
  | nil =>
    obtain ⟨c, rest, rfl⟩ := exists_cons_of_ne_nil hne
    have hc : ¬ ((47 : UInt8) = 47 ∧ c = 47) := fun h => hslash (h.2 ▸ mem_cons_self)
    refine ⟨[], ?_⟩
    rw [join, nil_append, removeTrailingSlashes, if_neg hc, removeTrailingSlashes_of_not_mem hslash]
  | cons c path ih =>
    obtain ⟨front, hfront⟩ := ih
    obtain ⟨d, rest, hrest⟩ : ∃ d rest, join path name = d :: rest :=
      exists_cons_of_ne_nil (append_ne_nil_of_right_ne_nil _ (cons_ne_nil _ _))
    have hjoin : join (c :: path) name = c :: d :: rest := by
      rw [← hrest]
      rfl
    rw [hjoin, removeTrailingSlashes, ← hrest, hfront]
    split_ifs
    · exact ⟨front, rfl⟩
    · exact ⟨c :: front, rfl⟩

theorem rtakeWhile_join (h : Proper name) (path : Bytes) : (join path name).rtakeWhile (· ≠ 47) = name := by
  have hall : ∀ c ∈ name.reverse, (decide (c ≠ 47)) = true := by
    intro c hc
    rw [mem_reverse] at hc
    exact decide_eq_true fun heq => h.2 (heq ▸ hc)
  rw [List.rtakeWhile, join, reverse_append, reverse_cons, append_assoc, takeWhile_append_of_pos hall]
  simp

theorem checkSkipDirs_iff (x : TWExclude) (path : Bytes) (identity : Option Identity) (h : Proper name) :
    x.checkSkipDirs (join path name) identity = true ↔ x.Excluded path name identity := by
  obtain ⟨front, hfront⟩ := removeTrailingSlashes_join h path
  have hmem : (47 : UInt8) ∈ join front name := mem_append_right _ mem_cons_self
  rw [TWExclude.checkSkipDirs, TWExclude.Excluded, hfront]
  simp only [rtakeWhile_join h, hmem, h.1, ne_eq, not_false_eq_true, true_and, TWExclude.checkRelativeSkipDirs,
    TWExclude.checkAbsoluteSkipDirs, decide_eq_true_eq]
  split_ifs with hrelative habsolute
  · simp [hrelative]
  · simp [habsolute]
  · simp [hrelative, habsolute, Option.any_eq_true]

/-- Regular files and symbolic links. -/
def FileType.kept : FileType → Bool
  | reg | lnk => true
  | _ => false

/-- The paths of the directories, regular files and symbolic links below a directory. Only directories that are not
excluded are entered. -/
inductive Below (x : TWExclude) : Bytes → Listing → Bytes → Prop
  | file {path : Bytes} {l : Listing} {name : Bytes} {type : FileType} {size : Nat}
      (hentry : (name, Entry.file type size) ∈ l.entries) (hkept : type.kept = true)
      (hexcluded : ¬ x.Excluded path name none) : Below x path l (join path name)
  | directory {path : Bytes} {l : Listing} {name : Bytes} {identity : Identity} {contents : Listing}
      (hentry : (name, Entry.directory identity contents) ∈ l.entries)
      (hexcluded : ¬ x.Excluded path name (some identity)) : Below x path l (join path name)
  | inside {path : Bytes} {l : Listing} {name : Bytes} {identity : Identity} {contents : Listing} {p : Bytes}
      (hentry : (name, Entry.directory identity contents) ∈ l.entries)
      (hexcluded : ¬ x.Excluded path name (some identity)) (hp : Below x (join path name) contents p) : Below x path l p

inductive Kind
  | reg (size : Nat) | lnk | dir
  deriving DecidableEq

structure Item where
  fn : Bytes
  kind : Kind
  deriving DecidableEq

def FileType.item (type : FileType) (fn : Bytes) (size : Nat) : List Item :=
  match type with
  | reg => [⟨fn, .reg size⟩]
  | lnk => [⟨fn, .lnk⟩]
  | _ => []

def items (x : TWExclude) : Bytes → Listing → List Item
  | _, .nil => []
  | path, .file name type size rest =>
    (if x.checkSkipDirs (join path name) none then [] else type.item (join path name) size) ++ items x path rest
  | path, .directory name identity contents rest =>
    (if x.checkSkipDirs (join path name) (some identity) then []
      else ⟨join path name, .dir⟩ :: items x (join path name) contents) ++ items x path rest

variable {path : Bytes} {l : Listing} {x : TWExclude}

theorem below_mono {p : Bytes} {l' : Listing} (hsub : l.entries ⊆ l'.entries)
    (h : Below x path l p) : Below x path l' p := by
  cases h with
  | file hentry hkept hexcluded => exact .file (hsub hentry) hkept hexcluded
  | directory hentry hexcluded => exact .directory (hsub hentry) hexcluded
  | inside hentry hexcluded hp => exact .inside (hsub hentry) hexcluded hp

theorem mem_item {type : FileType} {fn : Bytes} {size : Nat} {p : Bytes} :
    (∃ item ∈ type.item fn size, item.fn = p) ↔ type.kept = true ∧ fn = p := by
  cases type <;> simp [FileType.item, FileType.kept]

theorem mem_items_iff {p : Bytes} (hl : l.WellFormed) :
    (∃ item ∈ items x path l, item.fn = p) ↔ Below x path l p := by
  induction l generalizing path with
  | nil =>
    constructor
    · rintro ⟨item, hitem, -⟩
      cases hitem
    · intro h
      cases h with
      | file hentry | directory hentry | inside hentry => cases hentry
  | file name type size rest ih =>
    obtain ⟨hname, -, hrest⟩ := hl
    have hskip := checkSkipDirs_iff x path none hname
    simp only [items, mem_append, or_and_right, exists_or, ih hrest]
    constructor
    · rintro (⟨item, hitem, hfn⟩ | h)
      · split_ifs at hitem with hexcluded
        · cases hitem
        · obtain ⟨hkept, rfl⟩ := mem_item.mp ⟨item, hitem, hfn⟩
          exact .file mem_cons_self hkept fun h => hexcluded (hskip.mpr h)
      · exact below_mono (subset_cons_self _ _) h
    · intro h
      cases h with
      | file hentry hkept hexcluded =>
        rcases mem_cons.mp hentry with heq | hentry
        · obtain ⟨rfl, heq⟩ := Prod.mk.inj heq
          cases heq
          rw [if_neg fun h => hexcluded (hskip.mp h)]
          exact .inl (mem_item.mpr ⟨hkept, rfl⟩)
        · exact .inr (.file hentry hkept hexcluded)
      | directory hentry hexcluded =>
        rcases mem_cons.mp hentry with heq | hentry
        · cases heq
        · exact .inr (.directory hentry hexcluded)
      | inside hentry hexcluded hp =>
        rcases mem_cons.mp hentry with heq | hentry
        · cases heq
        · exact .inr (.inside hentry hexcluded hp)
  | directory name identity contents rest ihcontents ihrest =>
    obtain ⟨hname, -, hcontents, hrest⟩ := hl
    have hskip := checkSkipDirs_iff x path (some identity) hname
    simp only [items, mem_append, or_and_right, exists_or, ihrest hrest]
    constructor
    · rintro (⟨item, hitem, hfn⟩ | h)
      · split_ifs at hitem with hexcluded
        · cases hitem
        · have hexcluded' : ¬ x.Excluded path name (some identity) := fun h => hexcluded (hskip.mpr h)
          rcases mem_cons.mp hitem with rfl | hitem
          · exact hfn ▸ .directory mem_cons_self hexcluded'
          · exact .inside mem_cons_self hexcluded' ((ihcontents hcontents).mp ⟨item, hitem, hfn⟩)
      · exact below_mono (subset_cons_self _ _) h
    · intro h
      cases h with
      | file hentry hkept hexcluded =>
        rcases mem_cons.mp hentry with heq | hentry
        · cases heq
        · exact .inr (.file hentry hkept hexcluded)
      | directory hentry hexcluded =>
        rcases mem_cons.mp hentry with heq | hentry
        · cases heq
          rw [if_neg fun h => hexcluded (hskip.mp h)]
          exact .inl ⟨_, mem_cons_self, rfl⟩
        · exact .inr (.directory hentry hexcluded)
      | inside hentry hexcluded hp =>
        rcases mem_cons.mp hentry with heq | hentry
        · cases heq
          rw [if_neg fun h => hexcluded (hskip.mp h)]
          obtain ⟨item, hitem, hfn⟩ := (ihcontents hcontents).mpr hp
          exact .inl ⟨item, mem_cons_of_mem _ hitem, hfn⟩
        · exact .inr (.inside hentry hexcluded hp)

theorem exists_name_of_mem_items {item : Item} (h : item ∈ items x path l) :
    ∃ name ∈ l.names, ∃ tail, item.fn = join path name ++ tail ∧ (tail = [] ∨ tail.head? = some 47) := by
  induction l generalizing path with
  | nil => cases h
  | file name type size rest ih =>
    rcases mem_append.mp h with h | h
    · split_ifs at h with hskip
      · cases h
      · obtain ⟨-, hfn⟩ := mem_item.mp ⟨item, h, rfl⟩
        exact ⟨name, mem_cons_self, [], by rw [← hfn, append_nil], .inl rfl⟩
    · obtain ⟨other, hother, tail, htail⟩ := ih h
      exact ⟨other, mem_cons_of_mem _ hother, tail, htail⟩
  | directory name identity contents rest ihcontents ihrest =>
    rcases mem_append.mp h with h | h
    · split_ifs at h with hskip
      · cases h
      · rcases mem_cons.mp h with rfl | h
        · exact ⟨name, mem_cons_self, [], (append_nil _).symm, .inl rfl⟩
        · obtain ⟨inner, -, tail, htail, -⟩ := ihcontents h
          refine ⟨name, mem_cons_self, 47 :: inner ++ tail, ?_, .inr rfl⟩
          rw [htail, join, append_assoc]
    · obtain ⟨other, hother, tail, htail⟩ := ihrest h
      exact ⟨other, mem_cons_of_mem _ hother, tail, htail⟩

theorem name_eq_of_join {name other tail tail' : Bytes} (hname : Proper name) (hother : Proper other)
    (htail : tail = [] ∨ tail.head? = some 47) (htail' : tail' = [] ∨ tail'.head? = some 47)
    (h : join path name ++ tail = join path other ++ tail') : name = other ∧ tail = tail' := by
  have hstop : ∀ {n t : Bytes}, Proper n → (t = [] ∨ t.head? = some 47) → (n ++ t).takeWhile (· ≠ 47) = n := by
    intro n t hn ht
    have hall : ∀ c ∈ n, decide (c ≠ 47) = true := fun c hc => decide_eq_true fun heq => hn.2 (heq ▸ hc)
    rw [takeWhile_append_of_pos hall]
    rcases ht with rfl | ht
    · rw [takeWhile_nil, append_nil]
    · obtain ⟨c, t, rfl⟩ := exists_cons_of_ne_nil (ne_nil_of_mem (mem_of_mem_head? ht))
      rw [List.head?_cons, Option.some_inj] at ht
      rw [ht, takeWhile_cons_of_neg (by decide), append_nil]
  rw [join, join, append_assoc, append_assoc, append_cancel_left_eq, cons_append, cons_append, cons_inj_right] at h
  have heq : name = other := by rw [← hstop hname htail, h, hstop hother htail']
  subst heq
  exact ⟨rfl, append_cancel_left h⟩

theorem Listing.WellFormed.proper (hl : l.WellFormed) : ∀ name ∈ l.names, Proper name := by
  induction l with
  | nil => exact fun _ h => absurd h not_mem_nil
  | file name type size rest ih => exact forall_mem_cons.mpr ⟨hl.1, ih hl.2.2⟩
  | directory name identity contents rest _ ih => exact forall_mem_cons.mpr ⟨hl.1, ih hl.2.2.2⟩

theorem not_mem_items_of_name (x : TWExclude) (path tail : Bytes) {rest : Listing} (hrest : rest.WellFormed)
    (hname : Proper name) (hnew : name ∉ rest.names) (htail : tail = [] ∨ tail.head? = some 47) :
    join path name ++ tail ∉ (items x path rest).map Item.fn := by
  intro hmem
  obtain ⟨item, hitem, hfn⟩ := mem_map.mp hmem
  obtain ⟨other, hother, tail', hitemFn, htail'⟩ := exists_name_of_mem_items hitem
  obtain ⟨rfl, -⟩ := name_eq_of_join hname (hrest.proper _ hother) htail htail' (hfn.symm.trans hitemFn)
  exact hnew hother

theorem nodup_items (hl : l.WellFormed) : ((items x path l).map Item.fn).Nodup := by
  induction l generalizing path with
  | nil => exact nodup_nil
  | file name type size rest ih =>
    obtain ⟨hname, hnew, hrest⟩ := hl
    rw [items, map_append]
    split_ifs
    · exact ih hrest
    · have hout := not_mem_items_of_name x path [] hrest hname hnew (.inl rfl)
      rw [append_nil] at hout
      cases type with
      | reg | lnk => exact nodup_cons.mpr ⟨hout, ih hrest⟩
      | blk | chr | fifo | sock => exact ih hrest
  | directory name identity contents rest ihcontents ihrest =>
    obtain ⟨hname, hnew, hcontents, hrest⟩ := hl
    rw [items, map_append]
    split_ifs
    · exact ihrest hrest
    · have hinner : ∀ item ∈ items x (join path name) contents, ∃ tail,
          item.fn = join path name ++ tail ∧ tail.head? = some 47 := by
        intro item hitem
        obtain ⟨inner, -, tail, htail, -⟩ := exists_name_of_mem_items hitem
        exact ⟨47 :: inner ++ tail, by rw [htail, join, append_assoc], rfl⟩
      rw [nodup_append, map_cons, nodup_cons]
      refine ⟨⟨?_, ihcontents hcontents⟩, ihrest hrest, ?_⟩
      · intro hmem
        obtain ⟨item, hitem, hfn⟩ := mem_map.mp hmem
        obtain ⟨tail, htail, hhead⟩ := hinner item hitem
        rw [hfn, self_eq_append_right] at htail
        rw [htail] at hhead
        cases hhead
      · rintro p hp q hq rfl
        rcases mem_cons.mp hp with rfl | hp
        · exact not_mem_items_of_name x path [] hrest hname hnew (.inl rfl) (by rwa [append_nil])
        · obtain ⟨item, hitem, rfl⟩ := mem_map.mp hp
          obtain ⟨tail, htail, hhead⟩ := hinner item hitem
          exact not_mem_items_of_name x path tail hrest hname hnew (.inr hhead) (htail ▸ hq)

end AeraRecovery.TarBackup
