import AeraRecovery.Registration.Database

namespace AeraRecovery.Registration

open Lib Bytes Crash CrashCalls List Function Option

def Contains (d : Disk) (path bytes : Bytes) : Prop := ∃ a, d path = some (.file bytes a)

def Io.Quiet (io : Io) : Prop := ∀ c n, io.fails c n = false

def Io.Removes (io : Io) : Prop := ∀ path n, io.fails (.unlink path) n = false

/-- Only `path` changes, and only if nothing was there. -/
def Kept (path : Bytes) (d t : Disk) : Prop := ∀ name, name ≠ path ∨ d name ≠ none → t name = d name

theorem Io.Quiet.not_exists {io : Io} (h : io.Quiet) {c : Call} : ¬ ∃ n, io.fails c n = true := by
  rintro ⟨n, hn⟩
  exact Bool.false_ne_true ((h c n).symm.trans hn)

theorem Io.Removes.not_exists {io : Io} (h : io.Removes) {path : Bytes} : ¬ ∃ n, io.fails (.unlink path) n = true := by
  rintro ⟨n, hn⟩
  exact Bool.false_ne_true ((h path n).symm.trans hn)

section

variable {io : Io} {d t : Disk} {path bytes : Bytes} {a : Attributes}

def draft (d : Disk) (path bytes : Bytes) (a : Attributes) : Disk := update d path (some (.file bytes a))

theorem contains_draft : Contains (draft d path bytes a) path bytes := ⟨a, update_self _ _ _⟩

theorem draft_of_ne {name : Bytes} (h : name ≠ path) : draft d path bytes a name = d name := update_of_ne h _ _

theorem kept_draft (h : d path = none) : Kept path d (draft d path bytes a) := by
  intro name hname
  refine draft_of_ne ?_
  rintro rfl
  exact hname.elim (fun hne => hne rfl) fun hsome => hsome h

theorem alter_draft (change : Bytes → Attributes → Bytes × Attributes) :
    (draft d path bytes a).alter path change = some (draft d path (change bytes a).1 (change bytes a).2) := by
  rw [Disk.alter, draft, update_self]
  dsimp only
  rw [update_idem, draft]

theorem sound_alter {c : Call} {change : Bytes → Attributes → Bytes × Attributes} {Q : Bool → Disk → Prop}
    (hok : Q true (draft d path (change bytes a).1 (change bytes a).2))
    (hfail : (∃ n, io.fails c n = true) → Q false (draft d path bytes a)) :
    Sound (fun t => ∃ bytes a, t = draft d path bytes a) (attempt io.fails c (Disk.alter · path change))
      (draft d path bytes a) Q := by
  refine sound_attempt ⟨bytes, a, rfl⟩ ?_ fun h => hfail (h _ (alter_draft change))
  intro t ht
  rw [alter_draft] at ht
  rwa [← some.inj ht]

/-- What the calls on the open file leave: the whole text if all of them succeed. -/
def Filled (io : Io) (d : Disk) (path bytes : Bytes) (okay : Bool) (t : Disk) : Prop :=
  ∃ written a, t = draft d path written a ∧ (okay = true → written = bytes) ∧ (io.Quiet → okay = true)

theorem sound_writeAll (fuel : Nat) (bytes rest : Bytes) (hfuel : rest.length ≤ fuel) :
    Sound (fun t => ∃ bytes a, t = draft d path bytes a) (io.writeAll path fuel rest) (draft d path bytes a)
      (Filled io d path (bytes ++ rest)) := by
  induction fuel generalizing rest bytes with
  | zero =>
    obtain rfl := length_eq_zero_iff.mp (Nat.le_zero.mp hfuel)
    exact sound_pure ⟨bytes, a, rfl, fun _ => (append_nil bytes).symm, fun _ => rfl⟩
  | succ fuel ih =>
    cases rest with
    | nil => exact sound_pure ⟨bytes, a, rfl, fun _ => (append_nil bytes).symm, fun _ => rfl⟩
    | cons b rest =>
      rw [Io.writeAll]
      generalize hcount : max 1 (io.count path (rest.length + 1)) = count
      refine sound_andThen (sound_alter ?_ fun hfails => ?_)
      · rw [if_pos rfl]
        have hlength : ((b :: rest).drop count).length ≤ fuel := by
          rw [length_drop]
          omega
        have hnext := ih (bytes ++ (b :: rest).take count) _ hlength
        rw [append_assoc, take_append_drop] at hnext
        exact hnext
      · exact ⟨bytes, a, rfl, nofun, fun hquiet => absurd hfails hquiet.not_exists⟩

theorem Filled.andThen {p : Action Bool} {okay : Bool} (h : Filled io d path bytes okay t)
    (hp : ∀ a, Sound (fun t => ∃ bytes a, t = draft d path bytes a) p (draft d path bytes a) (Filled io d path bytes)) :
    if okay then Sound (fun t => ∃ bytes a, t = draft d path bytes a) p t (Filled io d path bytes)
    else Filled io d path bytes false t := by
  cases okay with
  | true =>
    obtain ⟨written, a, rfl, hwritten, -⟩ := h
    rw [if_pos rfl, hwritten rfl]
    exact hp a
  | false => exact h

theorem sound_setAttributes (change : Attributes → Attributes) :
    Sound (fun t => ∃ bytes a, t = draft d path bytes a) (io.setAttributes path change) (draft d path bytes a)
      (Filled io d path bytes) :=
  sound_alter ⟨bytes, change a, rfl, fun _ => rfl, fun _ => rfl⟩ fun hfails =>
    ⟨bytes, a, rfl, nofun, fun hquiet => absurd hfails hquiet.not_exists⟩

theorem sound_fill (attributes : Attributes) :
    Sound (fun t => ∃ bytes a, t = draft d path bytes a) (io.fill path bytes attributes) (draft d path [] a)
      (Filled io d path bytes) := by
  refine sound_andThen ((sound_writeAll bytes.length [] bytes (Nat.le_refl _)).imp fun _ _ h => h.andThen fun _ => ?_)
  refine sound_andThen ((sound_setAttributes _).imp fun _ _ h => h.andThen fun _ => ?_)
  refine sound_andThen ((sound_setAttributes _).imp fun _ _ h => h.andThen fun a => ?_)
  have hcontext : Sound (fun t => ∃ bytes a, t = draft d path bytes a)
      (if attributes.context = [] then pure true
        else io.setAttributes path fun a => { a with context := attributes.context })
      (draft d path bytes a) (Filled io d path bytes) := by
    split_ifs
    · exact sound_pure ⟨bytes, a, rfl, fun _ => rfl, fun _ => rfl⟩
    · exact sound_setAttributes _
  refine sound_andThen (hcontext.imp fun _ _ h => h.andThen fun a => sound_attempt ⟨bytes, a, rfl⟩ ?_ ?_)
  · intro t ht
    rw [← some.inj ht]
    exact ⟨bytes, a, rfl, fun _ => rfl, fun _ => rfl⟩
  · exact fun hfails => ⟨bytes, a, rfl, nofun, fun hquiet => absurd (hfails _ rfl) hquiet.not_exists⟩

/-- What `Write` leaves. -/
structure Written (io : Io) (d : Disk) (path bytes : Bytes) (error : Option WriteError) (t : Disk) : Prop where
  kept : Kept path d t
  saved : error = none → d path = none ∧ ∃ a, t = draft d path bytes a
  failed : error ≠ none → io.Removes → t = d
  quiet : io.Quiet → d path = none → error = none

theorem update_draft (h : d path = none) : update (draft d path bytes a) path none = d := by
  rw [draft, update_idem, ← h, update_eq_self]

theorem sound_unlink {Q : Bool → Disk → Prop} (hremove : Q true (update d path none))
    (hkeep : (io.Removes → d path = none ∨ d path = some .folder) → Q false d) :
    Sound (· = d) (io.unlink path) d Q := by
  refine sound_attempt rfl ?_ fun hfails => hkeep fun hremoves => ?_
  · intro t ht
    rw [Disk.unlink] at ht
    split at ht
    · cases ht
    · cases ht
    · rwa [← some.inj ht]
    · rwa [← some.inj ht]
  · by_contra hnode
    rw [not_or] at hnode
    refine hremoves.not_exists (hfails (update d path none) ?_)
    rw [Disk.unlink]
    cases hd : d path with
    | none => exact absurd hd hnode.1
    | some node =>
      cases node with
      | folder => exact absurd hd hnode.2
      | file | special => rfl

theorem sound_write (attributes : Attributes) :
    Sound (Kept path d) (io.write path bytes attributes) d (Written io d path bytes) := by
  have hsame : Kept path d d := fun _ _ => rfl
  cases hd : d path with
  | some node =>
    have hnone : d.create path { attributes with uid := 0, gid := 0, context := [] } = none := by rw [Disk.create, hd]
    refine sound_bind (sound_attempt (Q := fun okay t => okay = false ∧ t = d) hsame ?_ fun _ => ⟨rfl, rfl⟩) ?_
    · exact fun t ht => absurd (hnone.symm.trans ht) nofun
    · rintro okay t ⟨rfl, rfl⟩
      exact sound_pure ⟨hsame, nofun, fun _ _ => rfl, fun _ h => absurd (hd.symm.trans h) nofun⟩
  | none =>
    have hcreate : d.create path { attributes with uid := 0, gid := 0, context := [] } =
        some (draft d path [] { attributes with uid := 0, gid := 0, context := [] }) := by
      rw [Disk.create, hd, draft]
    refine sound_bind (sound_attempt (Q := fun okay t =>
      if okay then ∃ a, t = draft d path [] a else t = d ∧ ¬ io.Quiet) hsame ?_ fun hfails => ?_) ?_
    · intro t ht
      rw [hcreate] at ht
      exact ⟨_, (some.inj ht).symm⟩
    · exact ⟨rfl, fun hquiet => hquiet.not_exists (hfails _ hcreate)⟩
    intro okay t ht
    cases okay with
    | false =>
      obtain ⟨rfl, hloud⟩ := ht
      exact sound_pure ⟨hsame, nofun, fun _ _ => rfl, fun hquiet => absurd hquiet hloud⟩
    | true =>
      obtain ⟨a, rfl⟩ := ht
      have hcrash : ∀ t, (∃ bytes a, t = draft d path bytes a) → Kept path d t := by
        rintro t ⟨_, _, rfl⟩
        exact kept_draft hd
      refine sound_bind ((sound_fill attributes).mono hcrash) ?_
      rintro okay t ⟨written, a, rfl, hwritten, hquiet⟩
      cases okay with
      | true =>
        refine sound_pure ⟨kept_draft hd, fun _ => ⟨hd, a, ?_⟩, fun h => absurd rfl h, fun _ _ => rfl⟩
        rw [hwritten rfl]
      | false =>
        refine sound_bind ((sound_unlink (Q := fun _ t => Kept path d t ∧ (io.Removes → t = d)) ?_ ?_).mono ?_) ?_
        · rw [update_draft hd]
          exact ⟨hsame, fun _ => rfl⟩
        · refine fun h => ⟨kept_draft hd, fun hremoves => ?_⟩
          exact (h hremoves).elim (fun h => absurd ((update_self _ _ _).symm.trans h) nofun)
            fun h => absurd ((update_self _ _ _).symm.trans h) nofun
        · rintro t rfl
          exact kept_draft hd
        · rintro - t ⟨hkept, hremoves⟩
          exact sound_pure ⟨hkept, nofun, fun _ => hremoves, fun hq => absurd (hquiet hq) nofun⟩

end

def Cleared (l : List Target) (d t : Disk) : Prop :=
  ∀ name, t name = d name ∨ (name ∈ l.map Target.temporary ∧ t name = none)

section

variable {io : Io} {d t u : Disk} {l rest : List Target} {e : Target}

theorem Cleared.refl : Cleared l d d := fun _ => .inl rfl

variable {name : Bytes}

theorem Cleared.frame (h : Cleared l d t) (hname : name ∉ l.map Target.temporary) : t name = d name :=
  (h name).resolve_right fun hmem => hname hmem.1

theorem Cleared.absent (h : Cleared l d t) (hname : d name = none) : t name = none :=
  (h name).elim (fun heq => heq.trans hname) fun hgone => hgone.2

theorem Cleared.cons (hstep : t = d ∨ t = update d e.temporary none) (h : Cleared l t u) : Cleared (e :: l) d u := by
  intro name
  rcases h name with heq | ⟨hmem, hnone⟩
  · rcases hstep with rfl | rfl
    · exact .inl heq
    · by_cases hname : name = e.temporary
      · rw [hname, update_self] at heq
        exact .inr ⟨hname ▸ mem_cons_self, hname ▸ heq⟩
      · rw [update_of_ne hname] at heq
        exact .inl heq
  · exact .inr ⟨mem_cons_of_mem _ hmem, hnone⟩

theorem sound_unlinkAll (l : List Target) (d : Disk) :
    Sound (Cleared l d) (io.unlinkAll l) d fun _ t => Cleared l d t ∧
      (io.Removes → (∀ e ∈ l, d e.temporary ≠ some .folder) → ∀ e ∈ l, t e.temporary = none) := by
  induction l generalizing d with
  | nil => exact sound_pure ⟨.refl, fun _ _ => nofun⟩
  | cons e l ih =>
    refine sound_bind ((sound_unlink (Q := fun _ t => (t = d ∨ t = update d e.temporary none) ∧
      (io.Removes → d e.temporary ≠ some .folder → t e.temporary = none)) ?_ ?_).mono ?_) ?_
    · exact ⟨.inr rfl, fun _ _ => update_self _ _ _⟩
    · exact fun h => ⟨.inl rfl, fun hremoves hfolder => (h hremoves).resolve_right hfolder⟩
    · rintro t rfl
      exact .refl
    rintro - t ⟨hstep, hgone⟩
    refine ((ih t).mono fun u => .cons hstep).imp ?_
    rintro - u ⟨hcleared, hothers⟩
    refine ⟨.cons hstep hcleared, fun hremoves hfolder => ?_⟩
    rw [forall_mem_cons] at hfolder ⊢
    refine ⟨hcleared.absent (hgone hremoves hfolder.1), hothers hremoves fun x hx => ?_⟩
    rcases hstep with rfl | rfl
    · exact hfolder.2 x hx
    · by_cases hname : x.temporary = e.temporary
      · rw [hname, update_self]
        nofun
      · rw [update_of_ne hname]
        exact hfolder.2 x hx

/-- Exactly the temporary files of the targets `l` have been added. -/
structure Staged (d : Disk) (l : List Target) (t : Disk) : Prop where
  fresh : ∀ e ∈ l, d e.temporary = none
  nodup : (l.map Target.temporary).Nodup
  drafts : ∀ e ∈ l, Contains t e.temporary e.file.replacement
  frame : ∀ name, name ∉ l.map Target.temporary → t name = d name

def Grown (d t : Disk) : Prop := ∀ name, d name ≠ none → t name = d name

theorem Staged.not_mem (h : Staged d l t) (hname : d name ≠ none) : name ∉ l.map Target.temporary := by
  intro hmem
  obtain ⟨e, he, rfl⟩ := mem_map.mp hmem
  exact hname (h.fresh e he)

theorem Staged.grown (h : Staged d l t) : Grown d t := fun name hname => h.frame name (h.not_mem hname)

theorem Staged.grown_kept (h : Staged d l t) {path : Bytes} (hkept : Kept path t u) : Grown d u := by
  intro name hname
  have ht := h.grown name hname
  rw [hkept name (.inr (ht ▸ hname)), ht]

theorem Grown.cleared (h : Grown d t) (hfresh : ∀ e ∈ l, d e.temporary = none) (hcleared : Cleared l t u) :
    Grown d u := by
  intro name hname
  rw [hcleared.frame, h name hname]
  intro hmem
  obtain ⟨e, he, rfl⟩ := mem_map.mp hmem
  exact hname (hfresh e he)

theorem Staged.step (h : Staged d l t) {a : Attributes} (hnone : t e.temporary = none) :
    Staged d (l ++ [e]) (draft t e.temporary e.file.replacement a) := by
  have hnew : e.temporary ∉ l.map Target.temporary := by
    intro hmem
    obtain ⟨x, hx, hname⟩ := mem_map.mp hmem
    obtain ⟨b, hb⟩ := h.drafts x hx
    rw [hname, hnone] at hb
    cases hb
  constructor
  · rw [forall_mem_append]
    refine ⟨h.fresh, fun x hx => ?_⟩
    rw [mem_singleton.mp hx, ← h.frame _ hnew, hnone]
  · rw [map_append, nodup_append]
    refine ⟨h.nodup, nodup_singleton _, fun x hx y hy hxy => ?_⟩
    obtain rfl := mem_singleton.mp hy
    exact hnew (hxy ▸ hx)
  · rw [forall_mem_append]
    refine ⟨fun x hx => ?_, fun x hx => ?_⟩
    · have hne : x.temporary ≠ e.temporary := fun hname => hnew (hname ▸ mem_map_of_mem hx)
      rw [Contains, draft_of_ne hne]
      exact h.drafts x hx
    · rw [mem_singleton.mp hx]
      exact contains_draft
  · intro name hname
    rw [map_append, mem_append, not_or] at hname
    have hne : name ≠ e.temporary := fun heq => hname.2 (mem_singleton.mpr heq)
    rw [draft_of_ne hne, h.frame name hname.1]

structure StageEnd (io : Io) (d : Disk) (l rest : List Target) (error : Option WriteError) (t : Disk) : Prop where
  staged : error = none → Staged d (l ++ rest) t
  grown : Grown d t
  failed : error ≠ none → io.Removes → t = d
  quiet : io.Quiet → (∀ e ∈ rest, d e.temporary = none) → ((l ++ rest).map Target.temporary).Nodup → error = none

theorem Staged.unstaged (h : Staged d l t) (hcleared : Cleared l t u)
    (hgone : ∀ e ∈ l, u e.temporary = none) : u = d := by
  funext name
  by_cases hname : name ∈ l.map Target.temporary
  · obtain ⟨e, he, rfl⟩ := mem_map.mp hname
    rw [hgone e he, h.fresh e he]
  · rw [hcleared.frame hname, h.frame name hname]

theorem Staged.not_folder (h : Staged d l t) (he : e ∈ l) : t e.temporary ≠ some .folder := by
  obtain ⟨a, ha⟩ := h.drafts e he
  rw [ha]
  nofun

theorem sound_stage (h : Staged d l t) : Sound (Grown d) (io.stage l rest) t (StageEnd io d l rest) := by
  induction rest generalizing l t with
  | nil => exact sound_pure ⟨fun _ => by rwa [append_nil], h.grown, fun h => absurd rfl h, fun _ _ _ => rfl⟩
  | cons e rest ih =>
    refine sound_bind ((sound_write _).mono fun u => h.grown_kept) fun error u hwritten => ?_
    cases error with
    | none =>
      obtain ⟨hnone, a, rfl⟩ := hwritten.saved rfl
      refine (ih (h.step hnone)).imp fun error u hend => ?_
      refine ⟨fun herror => ?_, hend.grown, hend.failed, fun hquiet hfresh hnodup => ?_⟩
      · rw [append_cons]
        exact hend.staged herror
      · rw [append_cons] at hnodup
        exact hend.quiet hquiet (forall_mem_cons.mp hfresh).2 hnodup
    | some error =>
      have hgrown := h.grown_kept hwritten.kept
      refine sound_bind ((sound_unlinkAll l u).mono fun v => hgrown.cleared h.fresh) ?_
      rintro - v ⟨hcleared, hgone⟩
      refine sound_pure ⟨nofun, hgrown.cleared h.fresh hcleared, fun _ hremoves => ?_, fun hquiet hfresh hnodup => ?_⟩
      · obtain rfl := hwritten.failed nofun hremoves
        exact h.unstaged hcleared (hgone hremoves fun x hx => h.not_folder hx)
      · -- a fresh name is still free when its turn comes
        rw [append_cons, map_append, nodup_append] at hnodup
        have hnew : e.temporary ∉ l.map Target.temporary := by
          have hl := hnodup.1
          rw [map_append, nodup_append] at hl
          exact fun hmem => hl.2.2 _ hmem _ (mem_singleton_self _) rfl
        refine absurd (hwritten.quiet hquiet ?_) nofun
        rw [h.frame _ hnew]
        exact hfresh e mem_cons_self

end

end AeraRecovery.Registration
