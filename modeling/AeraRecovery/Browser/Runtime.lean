import AeraRecovery.Lib.Calls
import AeraRecovery.Lib.Bytes

namespace AeraRecovery.Browser

open Lib Bytes Calls Commands Commands.Command FileSystem Function List Option

/-- What `PrepareRuntime` prepares (`browser`), and `PreparePluginRuntime` (all others). -/
inductive Kind
  | browser | retroarch | doom | telegram | media | recorder | appvault | streams | pluginV2
  deriving DecidableEq

/-- The entry points that `PreparePluginRuntime` does not reject. -/
def pluginKind (id type entry : String) : Option Kind :=
  if type = "ui-runtime" ∧ entry = "main" then some .pluginV2
  else if type ≠ "app-runtime" ∨ entry ≠ id then none
  else if id = "retroarch" then some .retroarch
  else if id = "doom" then some .doom
  else if id = "telegram" then some .telegram
  else if id = "media" then some .media
  else if id = "recorder" then some .recorder
  else if id = "appvault" then some .appvault
  else if id = "streams" then some .streams
  else none

def Kind.stem : Kind → Bytes
  | .browser => ascii "aera-web-"
  | .retroarch => ascii "aera-ra-"
  | .doom => ascii "aera-doom-"
  | .telegram => ascii "aera-tg-"
  | .media => ascii "aera-media-"
  | .recorder => ascii "aera-rec-"
  | .appvault => ascii "aera-vault-"
  | .streams => ascii "aera-streams-"
  | .pluginV2 => ascii "aera-p2-"

def named (leaf : Bytes) (size n : Nat) (text : String) : Bool := leaf.length = size && leaf.take n = ascii text

def recognised (leaf : Bytes) : Bool :=
  named leaf 15 9 "aera-web-" || named leaf 14 8 "aera-ra-" || named leaf 16 10 "aera-doom-" ||
    named leaf 14 8 "aera-tg-" || named leaf 17 11 "aera-media-" || named leaf 15 9 "aera-rec-" ||
    named leaf 17 11 "aera-vault-" || named leaf 24 18 "aera-streams-" || named leaf 14 8 "aera-p2-"

/-- How the calls of a `RemoveRuntime` go: whether it can open the directory, which directories can be listed
(`openat`, `fdopendir`), and for which entries `readdir` comes to their name and `fstatat` succeeds. -/
structure Sweep where
  opens : Bool
  lists : List Bytes → Bool
  finds : List Bytes → Bool

/-- `unlink` and `rmdir` do what they can: a directory with something in it stays. -/
def unlinkat (p : List Bytes) (f : Files Bytes Bytes) : Files Bytes Bytes := (f.remove p).getD f

def clearDirectory (s : Sweep) : Nat → List Bytes → Files Bytes Bytes → Files Bytes Bytes
  | 0, _, f => f
  | room + 1, p, f =>
    if s.lists p then
      (f.list p).foldl (fun g n =>
        if s.finds (p ++ [n]) then
          unlinkat (p ++ [n]) (if g.entry (p ++ [n]) = some .dir then clearDirectory s room (p ++ [n]) g else g)
        else g) f
    else f

def removeRuntime (s : Sweep) (path : List Bytes) (f : Files Bytes Bytes) : Files Bytes Bytes :=
  if recognised (path.getLastD []) ∧ f.entry path = some .dir ∧ s.opens = true then
    unlinkat path (clearDirectory s (f.depth + 1) path f)
  else f

inductive Refusal
  | unresolved (error : String) | size | storage | memory | cancelled | integrity | invalid | other

def message (kind : Kind) (name : String) : Refusal → String
  | .unresolved "" =>
    if kind = .browser then "Install AERA Browser from Plugin Manager first."
    else "Install the plugin from Plugin Manager first."
  | .unresolved error => error
  | .size => subject ++ " payload is missing or has an unexpected size."
  | .storage =>
    if kind = .browser then "Browser expansion requires a RAM-backed temporary directory."
    else name ++ " expansion requires RAM-backed temporary storage."
  | .memory => "Not enough free RAM to prepare " ++ (if kind = .browser then "the browser" else name) ++ "."
  | .cancelled => subject ++ " preparation cancelled."
  | .integrity => subject ++ " payload integrity check failed."
  | .invalid => subject ++ " runtime validation or extraction failed."
  | .other => (if kind = .browser then "Browser" else "Plugin") ++ " runtime could not be prepared."
where subject := if kind = .browser then "Browser" else name

/-- A run of `PreparePluginRuntime` with an identifier, type and entry, or of `PrepareRuntime`: the check that refuses it
before the directory is made, the end of the directory's name, the entries that `Extract` makes and whether it succeeds,
and whether the run is cancelled then. -/
structure Attempt where
  plugin : Option (String × String × String)
  name : String
  refused : Option Refusal
  suffix : { s : Bytes // s.length = 6 }
  opened : Bool
  members : List (List Bytes × Entry Bytes)
  extracted : Bool
  cancelled : Bool

def Attempt.kind (a : Attempt) : Option Kind :=
  match a.plugin with
  | none => some .browser
  | some (id, type, entry) => pluginKind id type entry

variable (parent : List Bytes)

def Attempt.path (kind : Kind) (a : Attempt) : List Bytes := parent ++ [kind.stem ++ a.suffix]

def extract (path : List Bytes) (f : Files Bytes Bytes) (member : List Bytes × Entry Bytes) : Files Bytes Bytes :=
  (f.create (path ++ member.1) member.2).getD f

/-- The result is the published directory. `s` is how a clean-up goes. -/
def prepare (s : Sweep) (a : Attempt) (f : Files Bytes Bytes) :
    Except String (List Bytes) × Files Bytes Bytes :=
  match a.kind with
  | none => (.error "AERA rejected an unsupported plugin entry point.", f)
  | some kind =>
    let path := a.path parent kind
    match a.refused, f.create path .dir with
    | some refusal, _ => (.error (message kind a.name refusal), f)
    | none, none => (.error (message kind a.name .other), f)
    | none, some g =>
      let g := if a.opened then a.members.foldl (extract path) g else g
      if a.opened && a.extracted && !a.cancelled then (.ok path, g)
      else (.error (message kind a.name (if a.cancelled then .cancelled else .invalid)), removeRuntime s path g)

/-- What a worker can make of the published directory. -/
def Within (path : List Bytes) (f g : Files Bytes Bytes) : Prop :=
  g.entry path = some .dir ∧ ∀ q, ¬ path <+: q → g.entry q = f.entry q

/-- The directory that a run makes, with what `Extract` puts into it. -/
def Attempt.made (a : Attempt) (f : Files Bytes Bytes) : Option (Kind × Files Bytes Bytes) :=
  match a.kind, a.refused with
  | some kind, none => (f.create (a.path parent kind) .dir).map fun g =>
    (kind, if a.opened then a.members.foldl (extract (a.path parent kind)) g else g)
  | _, _ => none

/-- The directory of the entry at `p` can be listed as far as this entry. -/
def Sweep.Sees (s : Sweep) (p : List Bytes) : Prop := s.lists p.dropLast = true ∧ s.finds p = true

/-- The clean-up opens the directory and sees everything in it. -/
def Sweep.Reaches (s : Sweep) (path : List Bytes) (f : Files Bytes Bytes) : Prop :=
  s.opens = true ∧ ∀ q, q ≠ [] → f.entry (path ++ q) ≠ none → s.Sees (path ++ q)

theorem recognised_stem (k : Kind) (s : { s : Bytes // s.length = 6 }) :
    recognised (k.stem ++ s) = decide (k ≠ .streams) := by
  obtain ⟨s, hs⟩ := s
  cases k <;> simp [recognised, named, Kind.stem, ascii, hs]

theorem stem_of_named {leaf : Bytes} {n : Nat} {k : Kind} {text : String} (hk : k.stem = ascii text)
    (h : named leaf (n + 6) n text = true) : ∃ (k : Kind) (s : { s : Bytes // s.length = 6 }), leaf = k.stem ++ s := by
  simp only [named, Bool.and_eq_true, decide_eq_true_eq] at h
  exact ⟨k, ⟨leaf.drop n, by simp [h.1]⟩, by simp [hk, ← h.2]⟩

theorem stem_of_recognised {leaf : Bytes} (h : recognised leaf = true) :
    ∃ (k : Kind) (s : { s : Bytes // s.length = 6 }), leaf = k.stem ++ s := by
  simp only [recognised, Bool.or_eq_true] at h
  rcases h with (((((((h | h) | h) | h) | h) | h) | h) | h) | h
  · exact stem_of_named (k := .browser) rfl h
  · exact stem_of_named (k := .retroarch) rfl h
  · exact stem_of_named (k := .doom) rfl h
  · exact stem_of_named (k := .telegram) rfl h
  · exact stem_of_named (k := .media) rfl h
  · exact stem_of_named (k := .recorder) rfl h
  · exact stem_of_named (k := .appvault) rfl h
  · -- the first 18 bytes are not a text of 13
    simp only [named, Bool.and_eq_true, decide_eq_true_eq] at h
    have hlength := congrArg length h.2
    rw [length_take, h.1] at hlength
    exact absurd hlength (by decide)
  · exact stem_of_named (k := .pluginV2) rfl h

section

variable {s : Sweep} {p : List Bytes} {f g : Files Bytes Bytes}

/-- `g` is left of `f` when the directory `p` has been cleared: it is empty exactly if everything in it was seen. -/
structure Cleared (s : Sweep) (p : List Bytes) (f g : Files Bytes Bytes) : Prop where
  shrinks : Shrinks p f g
  kept : g.entry p = f.entry p
  empty : g.list p = [] ↔ ∀ q, q ≠ [] → f.entry (p ++ q) ≠ none → s.Sees (p ++ q)

theorem shrinks_unlinkat (p : List Bytes) (f : Files Bytes Bytes) : Shrinks p f (unlinkat p f) := by
  unfold unlinkat
  cases hremove : f.remove p with
  | none => exact .refl p f
  | some g => exact (shrinks_remove hremove).1

theorem unlinkat_gone (hp : p ≠ []) (hentry : f.entry p ≠ none) : (unlinkat p f).entry p = none ↔ f.list p = [] := by
  unfold unlinkat
  cases hremove : f.remove p with
  | none =>
    refine iff_of_false hentry fun hlist => ?_
    obtain ⟨g, hg⟩ := f.remove_isSome hp hentry hlist
    cases hremove.symm.trans hg
  | some g =>
    refine iff_of_true (shrinks_remove hremove).2 ?_
    rw [Files.remove] at hremove
    split_ifs at hremove with h
    exact h.2.2

/-- One turn of the loop: the entry at `p` is gone exactly if everything at and below it was seen. -/
theorem clearEntry_spec {room : Nat} (hp : p ≠ []) (hentry : f.entry p ≠ none) (hlists : s.lists p.dropLast = true)
    (hclear : Cleared s p f (clearDirectory s room p f)) :
    let g := if s.finds p then unlinkat p (if f.entry p = some .dir then clearDirectory s room p f else f) else f
    Shrinks p f g ∧ (g.entry p = none ↔ ∀ q, f.entry (p ++ q) ≠ none → s.Sees (p ++ q)) := by
  have hself : (∀ q, f.entry (p ++ q) ≠ none → s.Sees (p ++ q)) ↔
      s.finds p = true ∧ ∀ q, q ≠ [] → f.entry (p ++ q) ≠ none → s.Sees (p ++ q) := by
    constructor
    · intro h
      have hsees := h [] (by rwa [append_nil])
      rw [append_nil] at hsees
      exact ⟨hsees.2, fun q _ => h q⟩
    · rintro ⟨hfinds, h⟩ q hq
      by_cases hnil : q = []
      · rw [hnil, append_nil]
        exact ⟨hlists, hfinds⟩
      · exact h q hnil hq
  dsimp only
  rw [hself]
  split_ifs with hfinds hdir
  · refine ⟨hclear.shrinks.trans (shrinks_unlinkat _ _), ?_⟩
    rw [unlinkat_gone hp (hclear.kept ▸ hentry), hclear.empty, and_iff_right hfinds]
  · refine ⟨shrinks_unlinkat _ _, ?_⟩
    have hlist := list_eq_nil_of_ne_dir hdir
    rw [unlinkat_gone hp hentry, and_iff_right hfinds]
    exact iff_of_true hlist fun q hq h => absurd (f.list_eq_nil_iff.mp hlist q hq) h
  · exact ⟨.refl _ _, iff_of_false hentry fun h => hfinds h.1⟩

/-- The invariant of the loop over the names of `p`. -/
structure Clearing (s : Sweep) (p : List Bytes) (f : Files Bytes Bytes) (done : List Bytes) (g : Files Bytes Bytes) :
    Prop where
  shrinks : Shrinks p f g
  kept : g.entry p = f.entry p
  later : ∀ n, n ∉ done → ∀ q, g.entry (p ++ n :: q) = f.entry (p ++ n :: q)
  gone : ∀ n ∈ done, (g.entry (p ++ [n]) = none ↔ ∀ q, f.entry (p ++ n :: q) ≠ none → s.Sees (p ++ n :: q))

theorem Clearing.step {done : List Bytes} {n : Bytes} {g' : Files Bytes Bytes} (h : Clearing s p f done g)
    (hn : n ∉ done) (hshrinks : Shrinks (p ++ [n]) g g')
    (hgone : g'.entry (p ++ [n]) = none ↔ ∀ q, g.entry (p ++ [n] ++ q) ≠ none → s.Sees (p ++ [n] ++ q)) :
    Clearing s p f (done ++ [n]) g' := by
  have hother : ∀ m, m ≠ n → ∀ q, g'.entry (p ++ m :: q) = g.entry (p ++ m :: q) := by
    intro m hm q
    refine hshrinks.frame fun hprefix => hm ?_
    rw [prefix_append_right_inj] at hprefix
    exact (cons_prefix_cons.mp hprefix).1.symm
  refine ⟨h.shrinks.trans (hshrinks.mono (prefix_append p [n])), ?_, fun m hm q => ?_, fun m hm => ?_⟩
  · rw [hshrinks.frame, h.kept]
    intro hprefix
    have hlength := hprefix.length_le
    rw [length_append, length_singleton] at hlength
    omega
  · rw [mem_append, not_or, mem_singleton] at hm
    rw [hother m hm.2, h.later m hm.1]
  · by_cases hmn : m = n
    · subst hmn
      simp only [hgone, append_assoc, singleton_append, h.later m hn]
    · rw [hother m hmn []]
      exact h.gone m ((mem_append.mp hm).resolve_right fun h => hmn (mem_singleton.mp h))

theorem clearDirectory_cleared (s : Sweep) {room : Nat} (hroom : ∀ q, f.entry (p ++ q) ≠ none → q.length ≤ room) :
    Cleared s p f (clearDirectory s room p f) := by
  induction room generalizing p f with
  | zero =>
    have hnothing : ∀ q, q ≠ [] → f.entry (p ++ q) = none := by
      intro q hq
      by_contra h
      exact hq (length_eq_zero_iff.mp (Nat.le_zero.mp (hroom q h)))
    exact ⟨.refl _ _, rfl, iff_of_true (f.list_eq_nil_iff.mpr hnothing) fun q hq h => absurd (hnothing q hq) h⟩
  | succ room ih =>
    rw [clearDirectory]
    split_ifs with hlists
    · have hloop : ∀ todo done g, f.list p = done ++ todo → Clearing s p f done g → Clearing s p f (f.list p)
          (todo.foldl (fun g n =>
            if s.finds (p ++ [n]) then
              unlinkat (p ++ [n]) (if g.entry (p ++ [n]) = some .dir then clearDirectory s room (p ++ [n]) g else g)
            else g) g) := by
        intro todo
        induction todo with
        | nil =>
          intro done g hsplit hg
          rw [append_nil] at hsplit
          exact hsplit ▸ hg
        | cons n todo ihtodo =>
          intro done g hsplit hg
          have hn : n ∉ done := by
            intro h
            have hnodup := f.nodup_list p
            rw [hsplit, nodup_append] at hnodup
            exact hnodup.2.2 n h n mem_cons_self rfl
          have hentry : g.entry (p ++ [n]) ≠ none := by
            rw [hg.later n hn []]
            exact f.mem_list.mp (by rw [hsplit]; simp)
          have hbound : ∀ q, g.entry (p ++ [n] ++ q) ≠ none → q.length ≤ room := by
            intro q hq
            rw [append_assoc, singleton_append, hg.later n hn] at hq
            exact Nat.le_of_succ_le_succ (hroom _ hq)
          obtain ⟨hshrinks, hgone⟩ := clearEntry_spec (append_ne_nil_of_right_ne_nil p (cons_ne_nil n [])) hentry
            (by rwa [dropLast_concat]) (ih hbound)
          exact ihtodo (done ++ [n]) _ (by rw [hsplit, append_cons]) (hg.step hn hshrinks hgone)
      have hend := hloop (f.list p) [] f rfl ⟨.refl _ _, rfl, fun _ _ _ => rfl, nofun⟩
      refine ⟨hend.shrinks, hend.kept, ?_⟩
      generalize (f.list p).foldl _ f = g at hend ⊢
      rw [g.list_eq_nil_iff]
      constructor
      · intro h q hq hentry
        obtain ⟨n, q, rfl⟩ := exists_cons_of_ne_nil hq
        have hn : n ∈ f.list p := f.mem_list.mpr (f.ne_none_of_prefix (by simp) hentry)
        exact (hend.gone n hn).mp (h [n] (cons_ne_nil n [])) q hentry
      · intro h q hq
        obtain ⟨n, q, rfl⟩ := exists_cons_of_ne_nil hq
        rw [append_cons]
        refine g.entry_append_none ?_ q
        by_cases hn : n ∈ f.list p
        · exact (hend.gone n hn).mpr fun q => h _ (cons_ne_nil n q)
        · rw [hend.later n hn []]
          exact not_not.mp (mt f.mem_list.mpr hn)
    · refine ⟨.refl _ _, rfl, ?_⟩
      rw [f.list_eq_nil_iff]
      refine ⟨fun h q hq hentry => absurd (h q hq) hentry, fun h q hq => ?_⟩
      obtain ⟨n, q, rfl⟩ := exists_cons_of_ne_nil hq
      by_contra hentry
      have hn : f.entry (p ++ [n]) ≠ none := f.ne_none_of_prefix (by simp) hentry
      have hsees := h [n] (cons_ne_nil n []) hn
      rw [Sweep.Sees, dropLast_concat] at hsees
      exact hlists hsees.1

end

variable {path parent : List Bytes} {f g h : Files Bytes Bytes} {a : Attempt} {s : Sweep}

theorem removeRuntime_of_false (hleaf : recognised (path.getLastD []) = false) : removeRuntime s path f = f :=
  if_neg fun hr => Bool.false_ne_true (hleaf.symm.trans hr.1)

theorem cleared_all (s : Sweep) (path : List Bytes) (f : Files Bytes Bytes) :
    Cleared s path f (clearDirectory s (f.depth + 1) path f) := by
  refine clearDirectory_cleared s fun q hq => ?_
  have hlength := f.bounded _ hq
  rw [length_append] at hlength
  omega

theorem shrinks_removeRuntime (s : Sweep) (path : List Bytes) (f : Files Bytes Bytes) :
    Shrinks path f (removeRuntime s path f) := by
  unfold removeRuntime
  split_ifs
  · exact (cleared_all s path f).shrinks.trans (shrinks_unlinkat _ _)
  · exact .refl _ _

theorem removeRuntime_gone (hleaf : recognised (path.getLastD []) = true) (hpath : path ≠ [])
    (hdir : f.entry path = some .dir) : (removeRuntime s path f).entry path = none ↔ s.Reaches path f := by
  have hsome : f.entry path ≠ none := by rw [hdir]; nofun
  have hcleared := cleared_all s path f
  rw [removeRuntime, Sweep.Reaches]
  split_ifs with h
  · rw [unlinkat_gone hpath (hcleared.kept ▸ hsome), hcleared.empty, and_iff_right h.2.2]
  · exact iff_of_false hsome fun hr => h ⟨hleaf, hdir, hr.1⟩

theorem Within.extract (hw : Within path f g) (member : List Bytes × Entry Bytes) :
    Within path f (extract path g member) := by
  unfold Browser.extract
  cases hcreate : g.create (path ++ member.1) member.2 with
  | none => exact hw
  | some g' =>
    obtain ⟨hnew, hentry⟩ := Files.entry_create hcreate
    rw [Within, getD_some, hentry]
    refine ⟨?_, fun q hq => ?_⟩
    · rw [update_of_ne, hw.1]
      intro heq
      rw [← heq, hw.1] at hnew
      cases hnew
    · rw [update_of_ne, hw.2 q hq]
      rintro rfl
      exact hq (prefix_append path member.1)

theorem Within.members (hw : Within path f g) (members : List (List Bytes × Entry Bytes)) :
    Within path f (members.foldl (Browser.extract path) g) := by
  induction members generalizing g with
  | nil => exact hw
  | cons member members ih => exact ih (hw.extract member)

/-- Whatever is in the directory, the state before the run is restored exactly if the clean-up reaches it all. -/
theorem entry_removeRuntime_eq_iff {kind : Kind} (hcreate : f.create (a.path parent kind) .dir = some g)
    (hw : Within (a.path parent kind) g h) : (removeRuntime s (a.path parent kind) h).entry = f.entry ↔
      kind ≠ .streams ∧ s.Reaches (a.path parent kind) h := by
  obtain ⟨hnew, hentry⟩ := Files.entry_create hcreate
  have hleaf : recognised ((a.path parent kind).getLastD []) = decide (kind ≠ .streams) := by
    rw [Attempt.path, getLastD_concat, recognised_stem]
  have hrestored : (removeRuntime s (a.path parent kind) h).entry = f.entry ↔
      (removeRuntime s (a.path parent kind) h).entry (a.path parent kind) = none := by
    refine ⟨fun heq => by rw [heq, hnew], fun hgone => funext fun q => ?_⟩
    by_cases hq : a.path parent kind <+: q
    · obtain ⟨r, rfl⟩ := hq
      rw [Files.entry_append_none _ hgone, f.entry_append_none hnew]
    · rw [(shrinks_removeRuntime s _ h).frame hq, hw.2 q hq, hentry, update_of_ne]
      rintro rfl
      exact hq (prefix_refl _)
  rw [hrestored]
  by_cases hkind : kind = .streams
  · rw [removeRuntime_of_false (hleaf.trans (by simp [hkind])), hw.1]
    exact iff_of_false nofun fun h => h.1 hkind
  · rw [and_iff_right hkind]
    exact removeRuntime_gone (hleaf.trans (by simp [hkind])) (by simp [Attempt.path]) hw.1

theorem made_within {kind : Kind} {tree : Files Bytes Bytes} (hmade : a.made parent f = some (kind, tree)) :
    a.kind = some kind ∧ ∃ g, f.create (a.path parent kind) .dir = some g ∧ Within (a.path parent kind) g tree := by
  unfold Attempt.made at hmade
  split at hmade
  · rename_i hkind _
    obtain ⟨g, hcreate, heq⟩ := map_eq_some_iff.mp hmade
    cases heq
    obtain ⟨hnew, hentry⟩ := Files.entry_create hcreate
    have hg : Within (a.path parent kind) g g := ⟨by simp [hentry], fun _ _ => rfl⟩
    refine ⟨hkind, g, hcreate, ?_⟩
    split_ifs
    · exact hg.members a.members
    · exact hg
  · cases hmade

/-- A run that makes no directory changes nothing. One that makes a directory publishes it, or cleans it up. -/
theorem prepare_cases (parent : List Bytes) (s : Sweep) (a : Attempt) (f : Files Bytes Bytes) :
    (a.made parent f = none ∧ ∃ e, prepare parent s a f = (.error e, f)) ∨
    ∃ kind tree, a.made parent f = some (kind, tree) ∧
      (prepare parent s a f = (.ok (a.path parent kind), tree) ∨
        ∃ e, prepare parent s a f = (.error e, removeRuntime s (a.path parent kind) tree)) := by
  unfold prepare Attempt.made
  cases a.kind with
  | none => exact .inl ⟨rfl, _, rfl⟩
  | some kind =>
    cases a.refused with
    | some refusal => exact .inl ⟨rfl, _, rfl⟩
    | none =>
      cases hcreate : f.create (a.path parent kind) .dir with
      | none =>
        simp only [hcreate, map_none]
        exact .inl ⟨trivial, _, rfl⟩
      | some g =>
        simp only [hcreate, map_some]
        refine .inr ⟨kind, _, rfl, ?_⟩
        generalize (if a.opened = true then _ else g) = tree
        split
        · exact .inl rfl
        · exact .inr ⟨_, rfl⟩

/-- A run that fails leaves nothing behind, and a published directory is removed with all that a worker has made in
it, exactly if the kind is not `streams` and the clean-up reaches everything in the directory. Nothing else changes, and
nothing at all at a path whose last component is not a generated name. -/
theorem runtime_removed_iff (parent : List Bytes) (a : Attempt) (f : Files Bytes Bytes) (s : Sweep) :
    (∀ e g, prepare parent s a f = (.error e, g) → (g.entry = f.entry ↔
      ∀ kind tree, a.made parent f = some (kind, tree) → kind ≠ .streams ∧ s.Reaches (a.path parent kind) tree)) ∧
    (∀ path g, prepare parent s a f = (.ok path, g) → ∃ kind, a.kind = some kind ∧ path = a.path parent kind ∧
      ∀ h s', Within path g h → ((removeRuntime s' path h).entry = f.entry ↔ kind ≠ .streams ∧ s'.Reaches path h)) ∧
    (∀ path g q, ¬ path <+: q → (removeRuntime s path g).entry q = g.entry q) ∧
    ∀ path g, (∀ (k : Kind) (s : { s : Bytes // s.length = 6 }), path.getLastD [] ≠ k.stem ++ s) →
      removeRuntime s path g = g := by
  refine ⟨fun e g hrun => ?_, fun path g hrun => ?_, fun path g q hq => (shrinks_removeRuntime s path g).frame hq,
    fun path g hleaf => ?_⟩
  · rcases prepare_cases parent s a f with ⟨hmade, e', hnone⟩ | ⟨kind, tree, hmade, hok | ⟨e', herror⟩⟩
    · obtain ⟨-, rfl⟩ := Prod.mk.inj (hrun.symm.trans hnone)
      exact iff_of_true rfl fun kind tree h => nomatch hmade.symm.trans h
    · cases (Prod.mk.inj (hrun.symm.trans hok)).1
    · obtain ⟨-, rfl⟩ := Prod.mk.inj (hrun.symm.trans herror)
      obtain ⟨-, g, hcreate, hw⟩ := made_within hmade
      rw [entry_removeRuntime_eq_iff hcreate hw]
      refine ⟨fun h kind' tree' hmade' => ?_, fun h => h kind tree hmade⟩
      cases hmade.symm.trans hmade'
      exact h
  · rcases prepare_cases parent s a f with ⟨hmade, e', hnone⟩ | ⟨kind, tree, hmade, hok | ⟨e', herror⟩⟩
    · cases (Prod.mk.inj (hrun.symm.trans hnone)).1
    · obtain ⟨hpath, rfl⟩ := Prod.mk.inj (hrun.symm.trans hok)
      cases hpath
      obtain ⟨hkind, g', hcreate, hw⟩ := made_within hmade
      refine ⟨kind, hkind, rfl, fun h s' hh => ?_⟩
      exact entry_removeRuntime_eq_iff hcreate ⟨hh.1, fun q hq => (hh.2 q hq).trans (hw.2 q hq)⟩
    · cases (Prod.mk.inj (hrun.symm.trans herror)).1
  · refine removeRuntime_of_false (Bool.eq_false_iff.mpr fun hr => ?_)
    obtain ⟨k, s, hks⟩ := stem_of_recognised hr
    exact hleaf k s hks

def failed (id : String) : Attempt :=
  { plugin := some (id, "app-runtime", id), name := id, refused := none
    suffix := ⟨ascii "abcdef", rfl⟩, opened := true, members := [], extracted := false, cancelled := false }

/-- The directory of `streams` stays although no call fails, that of `doom` if it cannot be opened again. -/
theorem runtime_left_behind :
    (prepare [] ⟨true, fun _ => true, fun _ => true⟩ (failed "streams") .empty).1 =
        .error "streams runtime validation or extraction failed." ∧
      (prepare [] ⟨true, fun _ => true, fun _ => true⟩ (failed "streams") .empty).2.entry
        [ascii "aera-streams-abcdef"] = some .dir ∧
      (prepare [] ⟨false, fun _ => true, fun _ => true⟩ (failed "doom") .empty).2.entry
        [ascii "aera-doom-abcdef"] = some .dir :=
  ⟨rfl, rfl, rfl⟩

end AeraRecovery.Browser
