import Mathlib

namespace AeraRecovery.Lib.FileSystem

open List Function Option

variable {ν β : Type}

inductive Entry (β : Type)
  | file (content : β)
  | link (target : β)
  | special
  | dir
  deriving DecidableEq

def Entry.isFile : Entry β → Bool
  | file _ => true
  | link _ | special | dir => false

/-- A finite file system. Every entry but the root is in a directory. -/
structure Files (ν β : Type) where
  entry : List ν → Option (Entry β)
  names : List ν
  depth : Nat
  root : entry [] = some .dir
  closed : ∀ p, p ≠ [] → entry p ≠ none → entry p.dropLast = some .dir
  named : ∀ p, entry p ≠ none → ∀ n ∈ p, n ∈ names
  bounded : ∀ p, entry p ≠ none → p.length ≤ depth

def Apart (a b : List ν) : Prop := ¬ a <+: b ∧ ¬ b <+: a

variable {a b : List ν}

theorem Apart.append (h : Apart a b) (r : List ν) : ¬ b <+: a ++ r := by
  intro hb
  rcases prefix_or_prefix_of_prefix hb (prefix_append a r) with h' | h'
  · exact h.2 h'
  · exact h.1 h'

theorem apart_cons {m n : ν} (h : m ≠ n) (p q : List ν) : Apart (m :: p) (n :: q) :=
  ⟨fun hp => h (cons_prefix_cons.mp hp).1, fun hp => h (cons_prefix_cons.mp hp).1.symm⟩

theorem prefix_of_prefix_dropLast {a q : List ν} (h : a <+: q.dropLast) : a <+: q := h.trans q.dropLast_prefix

variable {p : List ν}

theorem not_prefix_dropLast (h : p ≠ []) : ¬ p <+: p.dropLast := by
  intro hp
  have hlength := hp.length_le
  have hpos := length_pos_of_ne_nil h
  rw [length_dropLast] at hlength
  omega

namespace Files

variable (f : Files ν β) {q : List ν}

theorem dir_of_append {p : List ν} (hq : q ≠ []) (h : f.entry (p ++ q) ≠ none) : f.entry p = some .dir := by
  induction q using reverseRecOn with
  | nil => exact absurd rfl hq
  | append_singleton q n ih =>
    have hdir := f.closed _ (append_ne_nil_of_right_ne_nil p hq) h
    rw [← append_assoc, dropLast_concat] at hdir
    by_cases hq : q = []
    · rwa [hq, append_nil] at hdir
    · exact ih hq (by rw [hdir]; exact some_ne_none _)

theorem entry_append_none (h : f.entry p = none) (q : List ν) : f.entry (p ++ q) = none := by
  by_contra hq
  by_cases hnil : q = []
  · rw [hnil, append_nil] at hq
    exact hq h
  · rw [f.dir_of_append hnil hq] at h
    cases h

theorem ne_none_of_prefix (hp : p <+: q) (hq : f.entry q ≠ none) : f.entry p ≠ none := by
  obtain ⟨r, rfl⟩ := hp
  exact fun hnone => hq (f.entry_append_none hnone r)

variable [DecidableEq ν] (f : Files ν β)

def list (p : List ν) : List ν := f.names.dedup.filter fun n => (f.entry (p ++ [n])).isSome

theorem mem_list {n : ν} : n ∈ f.list p ↔ f.entry (p ++ [n]) ≠ none := by
  rw [list, mem_filter, mem_dedup, isSome_iff_ne_none]
  refine and_iff_right_of_imp fun h => f.named _ h n ?_
  exact mem_append_right p (mem_singleton_self n)

theorem nodup_list (p : List ν) : (f.list p).Nodup := (nodup_dedup f.names).filter _

theorem list_eq_nil_iff : f.list p = [] ↔ ∀ q, q ≠ [] → f.entry (p ++ q) = none := by
  rw [eq_nil_iff_forall_not_mem]
  constructor
  · intro h q hq
    cases q with
    | nil => exact absurd rfl hq
    | cons n q =>
      have hn := mt f.mem_list.mpr (h n)
      rw [append_cons]
      exact f.entry_append_none (not_not.mp hn) q
  · intro h n hn
    exact f.mem_list.mp hn (h [n] (cons_ne_nil n []))

def write (p : List ν) (content : β) : Files ν β :=
  if h : (f.entry p).any Entry.isFile then
    have hdir : ∀ q, f.entry q = some .dir → q ≠ p := by
      rintro q hq rfl
      rw [hq] at h
      cases h
    have hsome : ∀ q, update f.entry p (some (.file content)) q ≠ none → f.entry q ≠ none := by
      intro q hq
      by_cases hqp : q = p
      · intro hnone
        rw [← hqp, hnone] at h
        cases h
      · rwa [update_of_ne hqp] at hq
    { f with
      entry := update f.entry p (some (.file content))
      root := by rw [update_of_ne (hdir [] f.root), f.root]
      closed := by
        intro q hq hentry
        have hparent := f.closed q hq (hsome q hentry)
        rw [update_of_ne (hdir _ hparent), hparent]
      named := fun q hentry => f.named q (hsome q hentry)
      bounded := fun q hentry => f.bounded q (hsome q hentry) }
  else f

theorem entry_write {old : β} (h : f.entry p = some (.file old)) (content : β) :
    (f.write p content).entry = update f.entry p (some (.file content)) := by
  rw [write, dif_pos]
  rw [h]
  rfl

/-- The paths below `b` are those below `a`, and nothing is left at `a`. -/
def moved (a b q : List ν) : Option (Entry β) :=
  if b <+: q then f.entry (a ++ q.drop b.length) else if a <+: q then none else f.entry q

theorem moved_target (a b r : List ν) : f.moved a b (b ++ r) = f.entry (a ++ r) := by
  rw [moved, if_pos (prefix_append b r), drop_left]

theorem moved_source (h : Apart a b) (r : List ν) : f.moved a b (a ++ r) = none := by
  rw [moved, if_neg (h.append r), if_pos (prefix_append a r)]

theorem moved_frame {a b : List ν} (ha : ¬ a <+: q) (hb : ¬ b <+: q) : f.moved a b q = f.entry q := by
  rw [moved, if_neg hb, if_neg ha]

theorem of_moved (h : f.moved a b q ≠ none) :
    (∃ r, q = b ++ r ∧ f.entry (a ++ r) ≠ none) ∨ ¬ a <+: q ∧ ¬ b <+: q ∧ f.entry q ≠ none := by
  by_cases hb : b <+: q
  · obtain ⟨r, rfl⟩ := hb
    exact .inl ⟨r, rfl, f.moved_target a b r ▸ h⟩
  · have ha : ¬ a <+: q := fun ha => h (by rw [moved, if_neg hb, if_pos ha])
    exact .inr ⟨ha, hb, f.moved_frame ha hb ▸ h⟩

theorem of_removed (h : update f.entry p none q ≠ none) : q ≠ p ∧ f.entry q ≠ none := by
  have hqp : q ≠ p := fun hqp => h (by rw [hqp, update_self])
  exact ⟨hqp, by rwa [update_of_ne hqp] at h⟩

/-- Remove a file, or a directory with nothing in it. -/
def remove (p : List ν) : Option (Files ν β) :=
  if h : p ≠ [] ∧ f.entry p ≠ none ∧ f.list p = [] then
    some {
      entry := update f.entry p none
      names := f.names
      depth := f.depth
      root := by rw [update_of_ne h.1.symm, f.root]
      closed := by
        intro q hq hentry
        obtain ⟨-, hentry⟩ := f.of_removed hentry
        have hne : q.dropLast ≠ p := by
          intro hp
          have hlast := dropLast_append_getLast hq
          rw [hp] at hlast
          rw [← hlast] at hentry
          exact hentry (f.list_eq_nil_iff.mp h.2.2 _ (cons_ne_nil _ []))
        rw [update_of_ne hne]
        exact f.closed q hq hentry
      named := fun q hentry => f.named q (f.of_removed hentry).2
      bounded := fun q hentry => f.bounded q (f.of_removed hentry).2 }
  else none

variable {g f : Files ν β}

theorem entry_remove (h : f.remove p = some g) : g.entry = update f.entry p none := by
  rw [remove] at h
  split_ifs at h
  cases h
  rfl

theorem remove_isSome (hp : p ≠ []) (hentry : f.entry p ≠ none) (hlist : f.list p = []) :
    ∃ g, f.remove p = some g := by
  rw [remove, dif_pos ⟨hp, hentry, hlist⟩]
  exact ⟨_, rfl⟩

/-- What is at `a` can take the place of what is at `b`. -/
def Free (a b : List ν) : Prop :=
  f.list b = [] ∧ (f.entry b ≠ none → (f.entry a = some .dir ↔ f.entry b = some .dir))

theorem free_of_none (h : f.entry b = none) : f.Free a b :=
  ⟨f.list_eq_nil_iff.mpr fun q _ => f.entry_append_none h q, fun hb => absurd h hb⟩

variable [DecidableEq β]

/-- A new entry, as `mkdir`, `symlink` or an exclusive `open` makes it. -/
def create (p : List ν) (e : Entry β) : Option (Files ν β) :=
  if h : p ≠ [] ∧ f.entry p = none ∧ f.entry p.dropLast = some .dir then
    some {
      entry := update f.entry p (some e)
      names := p ++ f.names
      depth := max f.depth p.length
      root := by rw [update_of_ne h.1.symm, f.root]
      closed := by
        intro q hq hentry
        have hne : q.dropLast ≠ p := by
          intro hp
          by_cases hqp : q = p
          · exact not_prefix_dropLast hq (by rw [hp, hqp])
          · rw [update_of_ne hqp] at hentry
            have hdir := f.closed q hq hentry
            rw [hp, h.2.1] at hdir
            cases hdir
        rw [update_of_ne hne]
        by_cases hqp : q = p
        · rw [hqp]
          exact h.2.2
        · rw [update_of_ne hqp] at hentry
          exact f.closed q hq hentry
      named := by
        intro q hentry n hn
        by_cases hqp : q = p
        · exact mem_append_left _ (hqp ▸ hn)
        · rw [update_of_ne hqp] at hentry
          exact mem_append_right _ (f.named q hentry n hn)
      bounded := by
        intro q hentry
        by_cases hqp : q = p
        · rw [hqp]
          exact le_max_right _ _
        · rw [update_of_ne hqp] at hentry
          exact (f.bounded q hentry).trans (le_max_left _ _) }
  else none

theorem entry_create {e : Entry β} (h : f.create p e = some g) :
    f.entry p = none ∧ g.entry = update f.entry p (some e) := by
  rw [create] at h
  split_ifs at h with hp
  cases h
  exact ⟨hp.2.1, rfl⟩

theorem create_isSome (e : Entry β) (hp : p ≠ []) (hnew : f.entry p = none)
    (hdir : f.entry p.dropLast = some .dir) : ∃ g, f.create p e = some g := by
  rw [create, dif_pos ⟨hp, hnew, hdir⟩]
  exact ⟨_, rfl⟩

instance (a b : List ν) : Decidable (f.Free a b) := instDecidableAnd

def rename (a b : List ν) : Option (Files ν β) :=
  if f.entry a = none then none
  else if a = b then some f
  else if h : ¬ a <+: b ∧ b ≠ [] ∧ f.entry b.dropLast = some .dir ∧ f.Free a b then
    some {
      entry := f.moved a b
      names := b ++ f.names
      depth := f.depth + b.length
      root := by
        have ha : ¬ a <+: [] := fun ha => h.1 (ha.trans nil_prefix)
        rw [f.moved_frame ha fun hb => h.2.1 (prefix_nil.mp hb), f.root]
      closed := by
        intro q hq hentry
        rcases f.of_moved hentry with ⟨r, rfl, hold⟩ | ⟨ha, hb, hold⟩
        · by_cases hr : r = []
          · rw [hr, append_nil, f.moved_frame (fun ha => h.1 (prefix_of_prefix_dropLast ha)) (not_prefix_dropLast h.2.1)]
            exact h.2.2.1
          · have hdir := f.closed _ (append_ne_nil_of_right_ne_nil a hr) hold
            rw [dropLast_append_of_ne_nil hr] at hdir ⊢
            rw [moved_target, hdir]
        · rw [f.moved_frame (fun h => ha (prefix_of_prefix_dropLast h)) fun h => hb (prefix_of_prefix_dropLast h)]
          exact f.closed q hq hold
      named := by
        intro q hentry n hn
        rcases f.of_moved hentry with ⟨r, rfl, hold⟩ | ⟨-, -, hold⟩
        · rcases mem_append.mp hn with hn | hn
          · exact mem_append_left _ hn
          · exact mem_append_right _ (f.named _ hold n (mem_append_right _ hn))
        · exact mem_append_right _ (f.named q hold n hn)
      bounded := by
        intro q hentry
        rcases f.of_moved hentry with ⟨r, rfl, hold⟩ | ⟨-, -, hold⟩
        · have hlength := f.bounded _ hold
          rw [length_append] at hlength ⊢
          omega
        · exact (f.bounded q hold).trans (Nat.le_add_right _ _) }
  else none

theorem entry_rename (hab : a ≠ b) (h : f.rename a b = some g) :
    Apart a b ∧ f.entry a ≠ none ∧ f.Free a b ∧ g.entry = f.moved a b := by
  rw [rename, if_neg hab] at h
  split_ifs at h with ha hb
  cases h
  refine ⟨⟨hb.1, ?_⟩, ha, hb.2.2.2, rfl⟩
  -- a directory above `a` is not empty
  rintro ⟨r, rfl⟩
  have hr : r ≠ [] := by
    rintro rfl
    exact hab (append_nil b)
  exact ha (f.list_eq_nil_iff.mp hb.2.2.2.1 r hr)

def empty : Files ν β where
  entry := update (fun _ => none) [] (some .dir)
  names := []
  depth := 0
  root := update_self _ _ _
  closed := by
    intro p hp h
    rw [update_of_ne hp] at h
    exact absurd rfl h
  named := by
    intro p h n hn
    rw [update_of_ne (ne_nil_of_mem hn)] at h
    exact absurd rfl h
  bounded := by
    intro p h
    by_cases hp : p = []
    · rw [hp]
      exact Nat.le_refl 0
    · rw [update_of_ne hp] at h
      exact absurd rfl h

def ofList (entries : List (List ν × Entry β)) : Files ν β :=
  entries.foldl (fun f e => (f.create e.1 e.2).getD f) empty

theorem entry_rename_root {a b : ν} (hab : a ≠ b) (h : f.rename [a] [b] = some g) :
    (∀ q, g.entry (b :: q) = f.entry (a :: q)) ∧ (∀ q, g.entry (a :: q) = none) ∧
      ∀ n q, n ≠ a → n ≠ b → g.entry (n :: q) = f.entry (n :: q) := by
  have hne : [a] ≠ [b] := fun h => hab (cons.inj h).1
  obtain ⟨hapart, -, -, hg⟩ := entry_rename hne h
  rw [hg]
  refine ⟨f.moved_target [a] [b], f.moved_source hapart, fun n q ha hb => ?_⟩
  exact f.moved_frame (apart_cons ha q []).2 (apart_cons hb q []).2

theorem rename_isSome (ha : f.entry a ≠ none) (hab : ¬ a <+: b) (hb : b ≠ [])
    (hdir : f.entry b.dropLast = some .dir) (hfree : f.Free a b) : ∃ g, f.rename a b = some g := by
  have hne : a ≠ b := fun h => hab (h ▸ prefix_refl a)
  rw [rename, if_neg ha, if_neg hne, dif_pos ⟨hab, hb, hdir, hfree⟩]
  exact ⟨_, rfl⟩

theorem rename_root_isSome {a b : ν} (hab : a ≠ b) (ha : f.entry [a] ≠ none) (hb : f.Free [a] [b]) :
    ∃ g, f.rename [a] [b] = some g :=
  f.rename_isSome ha (apart_cons hab [] []).1 (cons_ne_nil b []) f.root hb

end Files

end AeraRecovery.Lib.FileSystem
