import AeraRecovery.Registration.Staging

namespace AeraRecovery.Registration

open Lib Bytes Crash CrashCalls List Function

def Io.Restores (io : Io) : Prop := ∀ (t : Target) (n : Nat), io.fails (.rename t.rollback t.path) n = false

def Complete (files : List DatabaseFile) (d : Disk) : Prop :=
  ∀ f ∈ files, Contains d f.path f.original ∨ Contains d f.path f.replacement

def Original (files : List DatabaseFile) (d : Disk) : Prop := ∀ f ∈ files, Contains d f.path f.original

theorem reserve_ne_temporary (f : DatabaseFile) (e : Target) : f.reserve ≠ e.temporary :=
  append_ne_append (b := 121) (c := 119) (by decide) (by decide) (by decide)

theorem temporary_injective {a b : Target} (h : a.temporary = b.temporary) : a.path = b.path := append_cancel_right h

variable {files : List DatabaseFile}

theorem mem_targets {e : Target} : e ∈ targets files ↔ ∃ f ∈ files, e = ⟨f, f.reserve⟩ ∨ e = ⟨f, f.path⟩ := by
  simp only [targets, mem_flatMap, mem_cons, not_mem_nil, or_false]

theorem main_mem {f : DatabaseFile} (hf : f ∈ files) : ⟨f, f.path⟩ ∈ targets files :=
  mem_targets.mpr ⟨f, hf, .inr rfl⟩

theorem reserve_mem {f : DatabaseFile} (hf : f ∈ files) : ⟨f, f.reserve⟩ ∈ targets files :=
  mem_targets.mpr ⟨f, hf, .inl rfl⟩

structure Plan (files : List DatabaseFile) (d : Disk) : Prop where
  originals : Original files d
  fresh : ∀ e ∈ targets files, d e.temporary = none
  nodup : ((targets files).map Target.path).Nodup

section

variable {files : List DatabaseFile} {d t u : Disk} {done todo k : List Target} {e : Target}

section

variable (h : Plan files d) {a b : Target} (ha : a ∈ targets files) (hb : b ∈ targets files)

include h ha hb

theorem Plan.apart : a.path ≠ b.temporary := by
  obtain ⟨f, hf, rfl | rfl⟩ := mem_targets.mp ha
  · exact reserve_ne_temporary f b
  · intro heq
    obtain ⟨attributes, hmain⟩ := h.originals f hf
    rw [show f.path = b.temporary from heq, h.fresh b hb] at hmain
    cases hmain

theorem Plan.eq_of_path (hab : a.path = b.path) : a = b :=
  inj_on_of_nodup_map h.nodup ha hb hab

end

theorem Plan.path_not_temporary (h : Plan files d) (he : e ∈ targets files) (hk : ∀ x ∈ k, x ∈ targets files) :
    e.path ∉ k.map Target.temporary := by
  intro hmem
  obtain ⟨x, hx, hname⟩ := mem_map.mp hmem
  exact h.apart he (hk x hx) hname.symm

theorem Staged.plan (h : Staged d (targets files) t) (horiginal : Original files d) : Plan files d := by
  refine ⟨horiginal, h.fresh, ?_⟩
  have htemporary : (targets files).map Target.temporary =
      ((targets files).map Target.path).map (· ++ ascii ".aera-new") := by
    rw [map_map]
    rfl
  have hnodup := h.nodup
  rw [htemporary] at hnodup
  exact hnodup.of_map _

structure Renamed (files : List DatabaseFile) (d : Disk) (done todo : List Target) (t : Disk) : Prop where
  split : targets files = done ++ todo
  replaced : ∀ e ∈ done, Contains t e.path e.file.replacement
  plain : ∀ e ∈ done, d e.path ≠ some .folder
  staged : ∀ e ∈ todo, Contains t e.temporary e.file.replacement
  frame : ∀ name, name ∉ done.map Target.path → name ∉ todo.map Target.temporary → t name = d name

theorem Staged.renamed (h : Staged d (targets files) t) : Renamed files d [] (targets files) t :=
  ⟨rfl, nofun, nofun, h.drafts, fun name _ => h.frame name⟩

section

variable (h : Renamed files d done todo t)

include h

theorem Renamed.mem_done (he : e ∈ done) : e ∈ targets files := by
  rw [h.split]
  exact mem_append_left _ he

theorem Renamed.mem_todo (he : e ∈ todo) : e ∈ targets files := by
  rw [h.split]
  exact mem_append_right _ he

theorem Renamed.path_not_done (hplan : Plan files d) (he : e ∈ todo) : e.path ∉ done.map Target.path := by
  have hnodup := hplan.nodup
  rw [h.split, map_append, nodup_append] at hnodup
  exact fun hmem => hnodup.2.2 _ hmem _ (mem_map_of_mem he) rfl

theorem Renamed.todo_eq (hplan : Plan files d) (he : e ∈ todo) : t e.path = d e.path :=
  h.frame _ (h.path_not_done hplan he) (hplan.path_not_temporary (h.mem_todo he) fun _ hx => h.mem_todo hx)

theorem Renamed.complete (hplan : Plan files d) : Complete files t := by
  intro f hf
  have hmem := main_mem hf
  rw [h.split] at hmem
  rcases mem_append.mp hmem with hdone | htodo
  · exact .inr (h.replaced _ hdone)
  · rw [Contains, h.todo_eq hplan htodo]
    exact .inl (hplan.originals f hf)

end

def moved (t : Disk) (source target bytes : Bytes) (a : Attributes) : Disk :=
  draft (update t source none) target bytes a

theorem Renamed.step {a : Attributes} (h : Renamed files d done (e :: todo) t) (hplan : Plan files d)
    (hfolder : t e.path ≠ some .folder) :
    Renamed files d (done ++ [e]) todo (moved t e.temporary e.path e.file.replacement a) := by
  have he := h.mem_todo mem_cons_self
  have hsplit : targets files = (done ++ [e]) ++ todo := by
    rw [h.split, append_cons]
  have hother {name : Bytes} (hpath : name ≠ e.path) (htemporary : name ≠ e.temporary) :
      moved t e.temporary e.path e.file.replacement a name = t name := by
    rw [moved, draft_of_ne hpath, update_of_ne htemporary]
  constructor
  · exact hsplit
  · rw [forall_mem_append]
    refine ⟨fun x hx => ?_, fun x hx => ?_⟩
    · have hpath : x.path ≠ e.path := fun heq =>
        h.path_not_done hplan mem_cons_self (heq ▸ mem_map_of_mem hx)
      rw [Contains, hother hpath (hplan.apart (h.mem_done hx) he)]
      exact h.replaced x hx
    · rw [mem_singleton.mp hx]
      exact contains_draft
  · rw [forall_mem_append]
    refine ⟨h.plain, fun x hx => ?_⟩
    rwa [mem_singleton.mp hx, ← h.todo_eq hplan mem_cons_self]
  · intro x hx
    have hmem := h.mem_todo (mem_cons_of_mem e hx)
    have htemporary : x.temporary ≠ e.temporary := by
      intro heq
      have hnodup := hplan.nodup
      rw [h.split, map_append, nodup_append, map_cons, nodup_cons] at hnodup
      exact hnodup.2.1.1 (temporary_injective heq ▸ mem_map_of_mem hx)
    rw [Contains, hother (hplan.apart he hmem).symm htemporary]
    exact h.staged x (mem_cons_of_mem e hx)
  · intro name hdone htodo
    rw [map_append, mem_append, not_or] at hdone
    have hpath : name ≠ e.path := fun heq => hdone.2 (mem_singleton.mpr heq)
    by_cases htemporary : name = e.temporary
    · rw [moved, draft_of_ne hpath, htemporary, update_self, hplan.fresh e he]
    · rw [hother hpath htemporary]
      refine h.frame name hdone.1 fun hmem => ?_
      rcases mem_cons.mp hmem with heq | hmem
      · exact htemporary heq
      · exact htodo hmem

end

section

variable {io : Io} {C : Disk → Prop} {t u v : Disk} {source target bytes : Bytes} {a : Attributes}

theorem sound_replace {Q : Bool → Disk → Prop} (hsource : t source = some (.file bytes a)) (ht : C t)
    (hmoved : t target ≠ some .folder → C (moved t source target bytes a))
    (hok : t target ≠ some .folder → Q true (moved t source target bytes a))
    (hsync : t target ≠ some .folder → ¬ io.Quiet → Q false (moved t source target bytes a))
    (hfail : (t target ≠ some .folder → ∃ n, io.fails (.rename source target) n = true) → Q false t) :
    Sound C (io.replace source target) t Q := by
  refine sound_andThen (sound_attempt ht (fun u hu => ?_) fun hfails => ?_)
  · rw [Disk.rename, hsource] at hu
    obtain ⟨hfolder, hu⟩ := Option.ite_none_left_eq_some.mp hu
    rw [if_pos rfl, ← Option.some.inj hu]
    refine sound_attempt (hmoved hfolder) (fun u hu => ?_) fun hfails =>
      hsync hfolder fun hquiet => hquiet.not_exists (hfails _ rfl)
    rw [← Option.some.inj hu]
    exact hok hfolder
  · refine hfail fun hfolder => hfails (moved t source target bytes a) ?_
    rw [Disk.rename, hsource]
    exact if_neg hfolder

def Rolled (k : List Target) (t u : Disk) : Prop :=
  ∀ name, t name ≠ none → u name = t name ∨ ∃ e ∈ k, e.path = name ∧ Contains u name e.file.original

variable {k : List Target}

theorem Rolled.trans {l : List Target} (h : Rolled k t u) (h' : Rolled l u v) : Rolled (k ++ l) t v := by
  intro name hname
  have hlater : u name ≠ none → v name = u name ∨ ∃ e ∈ k ++ l, e.path = name ∧ Contains v name e.file.original := by
    intro hu
    refine (h' name hu).imp_right ?_
    rintro ⟨e, he, hpath⟩
    exact ⟨e, mem_append_right k he, hpath⟩
  rcases h name hname with heq | ⟨e, he, hpath, b, hb⟩
  · rw [← heq]
    exact hlater (heq ▸ hname)
  · have hu : u name ≠ none := by
      rw [hb]
      nofun
    refine (hlater hu).elim (fun heq => .inr ⟨e, mem_append_left l he, hpath, b, ?_⟩) .inr
    rw [heq, hb]

theorem Kept.rolled {path : Bytes} (h : Kept path t u) : Rolled k t u :=
  fun name hname => .inl (h name (.inr hname))

theorem rolled_draft {e : Target} {a : Attributes} : Rolled [e] t (draft t e.path e.file.original a) := by
  intro name _
  by_cases hpath : name = e.path
  · rw [hpath]
    exact .inr ⟨e, mem_singleton_self e, rfl, contains_draft⟩
  · exact .inl (draft_of_ne hpath)

structure RestoreEnd (io : Io) (t : Disk) (e : Target) (okay : Bool) (u : Disk) : Prop where
  rolled : Rolled [e] t u
  restored : okay = true → ∃ a, u = draft t e.path e.file.original a
  clean : io.Removes → io.Restores → t e.path ≠ some .folder → u = t ∨ ∃ a, u = draft t e.path e.file.original a

theorem sound_restore (e : Target) : Sound (Rolled [e] t) (io.restore e) t (RestoreEnd io t e) := by
  refine sound_bind ((sound_write e.file.attributes).mono fun u hu => hu.rolled) fun error u hwritten => ?_
  cases error with
  | some error =>
    exact sound_pure ⟨hwritten.kept.rolled, nofun, fun hremoves _ _ => .inl (hwritten.failed nofun hremoves)⟩
  | none =>
    obtain ⟨hfree, a, rfl⟩ := hwritten.saved rfl
    have hback : e.path ≠ e.rollback := by
      intro heq
      have hlength := congrArg List.length heq
      rw [Target.rollback, length_append] at hlength
      exact absurd hlength (by simp [ascii])
    have hmoved : moved (draft t e.rollback e.file.original a) e.rollback e.path e.file.original a =
        draft t e.path e.file.original a := by rw [moved, update_draft hfree]
    refine sound_replace (update_self _ _ _) (kept_draft hfree).rolled ?_ ?_ ?_ ?_
    · rw [hmoved]
      exact fun _ => rolled_draft
    · rw [hmoved]
      exact fun _ => ⟨rolled_draft, fun _ => ⟨a, rfl⟩, fun _ _ _ => .inr ⟨a, rfl⟩⟩
    · rw [hmoved]
      exact fun _ _ => ⟨rolled_draft, nofun, fun _ _ _ => .inr ⟨a, rfl⟩⟩
    · refine fun hfails => ⟨(kept_draft hfree).rolled, nofun, fun _ hrestores hfolder => ?_⟩
      rw [draft_of_ne hback] at hfails
      obtain ⟨n, hn⟩ := hfails hfolder
      exact absurd ((hrestores e n).symm.trans hn) Bool.false_ne_true

/-- What the rollback of the targets `k` leaves. -/
structure RollBackEnd (io : Io) (t : Disk) (k : List Target) (okay : Bool) (u : Disk) : Prop where
  rolled : Rolled k t u
  restored : okay = true → (k.map Target.path).Nodup → ∀ e ∈ k, Contains u e.path e.file.original
  frame : okay = true ∨ (io.Removes ∧ io.Restores ∧ ∀ e ∈ k, t e.path ≠ some .folder) →
    ∀ name, name ∉ k.map Target.path → u name = t name

theorem RestoreEnd.frame {e : Target} {okay okay' : Bool} (h : RestoreEnd io t e okay u)
    (hclean : (okay && okay') = true ∨ (io.Removes ∧ io.Restores ∧ ∀ x ∈ e :: k, t x.path ≠ some .folder)) :
    u = t ∨ ∃ a, u = draft t e.path e.file.original a := by
  rcases hclean with hokay | ⟨hremoves, hrestores, hfolder⟩
  · exact .inr (h.restored ((Bool.and_eq_true _ _).mp hokay).1)
  · exact h.clean hremoves hrestores (hfolder e mem_cons_self)

theorem sound_rollBack (k : List Target) : Sound (Rolled k t) (io.rollBack k) t (RollBackEnd io t k) := by
  induction k generalizing t with
  | nil => exact sound_pure ⟨fun _ _ => .inl rfl, by simp, fun _ _ _ => rfl⟩
  | cons e k ih =>
    have hfirst : ∀ u, Rolled [e] t u → Rolled (e :: k) t u :=
      fun u hu => hu.trans (l := k) fun _ _ => .inl rfl
    refine sound_bind ((sound_restore e).mono hfirst) fun okay u hone => ?_
    refine sound_bind (ih.mono fun v => hone.rolled.trans) fun okay' v hrest => sound_pure ?_
    refine ⟨hone.rolled.trans hrest.rolled, fun hokay hnodup => ?_, fun hclean name hname => ?_⟩
    · rw [Bool.and_eq_true] at hokay
      rw [map_cons, nodup_cons] at hnodup
      rw [forall_mem_cons]
      refine ⟨?_, hrest.restored hokay.2 hnodup.2⟩
      obtain ⟨a, rfl⟩ := hone.restored hokay.1
      rw [Contains, hrest.frame (.inl hokay.2) _ hnodup.1]
      exact contains_draft
    · rw [map_cons, mem_cons, not_or] at hname
      have hu : ∀ name, name ≠ e.path → u name = t name := by
        intro name hname
        rcases hone.frame hclean with rfl | ⟨a, rfl⟩
        · rfl
        · exact draft_of_ne hname
      rw [hrest.frame ?_ name hname.2, hu name hname.1]
      rcases hclean with hokay | ⟨hremoves, hrestores, hfolder⟩
      · exact .inl ((Bool.and_eq_true _ _).mp hokay).2
      · refine .inr ⟨hremoves, hrestores, fun x hx => ?_⟩
        rcases hone.clean hremoves hrestores (hfolder e mem_cons_self) with rfl | ⟨a, rfl⟩
        · exact hfolder x (mem_cons_of_mem e hx)
        · by_cases hpath : x.path = e.path
          · rw [hpath, draft, update_self]
            simp
          · rw [draft_of_ne hpath]
            exact hfolder x (mem_cons_of_mem e hx)

end

section

variable {io : Io} {files : List DatabaseFile} {d t u v : Disk} {done todo k : List Target}

/-- A replacement has failed, and the targets `k` are to be rolled back. -/
structure Broken (files : List DatabaseFile) (d : Disk) (k : List Target) (t : Disk) : Prop where
  mem : ∀ e ∈ k, e ∈ targets files
  nodup : (k.map Target.path).Nodup
  frame : ∀ name, name ∉ k.map Target.path → name ∉ (targets files).map Target.temporary → t name = d name
  complete : Complete files t
  temporaries : ∀ e ∈ targets files, t e.temporary ≠ some .folder
  plain : ∀ e ∈ k, d e.path ≠ some .folder → t e.path ≠ some .folder

theorem Contains.not_folder {path bytes : Bytes} (h : Contains t path bytes) : t path ≠ some .folder := by
  obtain ⟨a, ha⟩ := h
  rw [ha]
  nofun

theorem Renamed.broken (h : Renamed files d done todo t) (hplan : Plan files d) (hk : k <+: targets files)
    (hdone : ∀ e ∈ done, e ∈ k) : Broken files d k t := by
  refine ⟨fun e he => hk.subset he, ?_, fun name hname htemporary => ?_, h.complete hplan, fun e he => ?_, ?_⟩
  · exact hplan.nodup.sublist (hk.sublist.map _)
  · refine h.frame name (fun hmem => ?_) fun hmem => ?_
    · obtain ⟨e, he, rfl⟩ := mem_map.mp hmem
      exact hname (mem_map_of_mem (hdone e he))
    · obtain ⟨e, he, rfl⟩ := mem_map.mp hmem
      exact htemporary (mem_map_of_mem (h.mem_todo he))
  · by_cases hmem : e.temporary ∈ todo.map Target.temporary
    · obtain ⟨x, hx, hname⟩ := mem_map.mp hmem
      rw [← hname]
      exact (h.staged x hx).not_folder
    · have hpath : e.temporary ∉ done.map Target.path := by
        intro hmem
        obtain ⟨x, hx, hname⟩ := mem_map.mp hmem
        exact hplan.apart (h.mem_done hx) he hname
      rw [h.frame _ hpath hmem, hplan.fresh e he]
      nofun
  · intro e he hfolder
    have hmem := hk.subset he
    rw [h.split] at hmem
    rcases mem_append.mp hmem with hmem | hmem
    · exact (h.replaced e hmem).not_folder
    · rwa [h.todo_eq hplan hmem]

theorem Complete.rolled (h : Complete files t) (hplan : Plan files d) (hk : ∀ e ∈ k, e ∈ targets files)
    (hrolled : Rolled k t u) : Complete files u := by
  intro f hf
  have hsome : t f.path ≠ none := by
    rcases h f hf with ⟨a, ha⟩ | ⟨a, ha⟩
    · rw [ha]; nofun
    · rw [ha]; nofun
  rcases hrolled f.path hsome with heq | ⟨e, he, hpath, hcontains⟩
  · rw [Contains, Contains, heq]
    exact h f hf
  · rw [hplan.eq_of_path (hk e he) (main_mem hf) hpath] at hcontains
    exact .inl hcontains

theorem Complete.cleared (h : Complete files t) (hplan : Plan files d) (hcleared : Cleared (targets files) t u) :
    Complete files u := by
  intro f hf
  rw [Contains, Contains, hcleared.frame (hplan.path_not_temporary (main_mem hf) fun _ h => h)]
  exact h f hf

/-- How `Commit` ends. -/
structure CommitEnd (io : Io) (files : List DatabaseFile) (d : Disk) (outcome : Outcome) (t : Disk) : Prop where
  committed : outcome = .committed → ∀ f ∈ files, Contains t f.path f.replacement ∧ Contains t f.reserve f.replacement
  restored : outcome = .restored →
    ∀ f ∈ files, Contains t f.path f.original ∧ (t f.reserve = d f.reserve ∨ Contains t f.reserve f.original)
  frame : outcome = .committed ∨ (outcome = .restored ∧ io.Removes) ∨
      (io.Removes ∧ io.Restores ∧ ∀ e ∈ targets files, d e.path ≠ some .folder) →
    ∀ name, name ∉ (targets files).map Target.path → t name = d name
  complete : Original files d → Complete files t

theorem Renamed.commitEnd (h : Renamed files d done [] t) (hplan : Plan files d) :
    CommitEnd io files d .committed t := by
  have hall : targets files = done := by rw [h.split, append_nil]
  refine ⟨fun _ f hf => ⟨?_, ?_⟩, nofun, fun _ name hname => ?_, fun _ => h.complete hplan⟩
  · exact h.replaced _ (hall ▸ main_mem hf)
  · exact h.replaced _ (hall ▸ reserve_mem hf)
  · exact h.frame name (hall ▸ hname) not_mem_nil

theorem Broken.target (h : Broken files d k t) (hplan : Plan files d) (hback : RollBackEnd io t k true u)
    (hcleared : Cleared (targets files) u v) {e : Target} (he : e ∈ targets files) :
    v e.path = d e.path ∨ Contains v e.path e.file.original := by
  have htemporary := hplan.path_not_temporary he fun _ h => h
  rw [Contains, hcleared.frame htemporary]
  by_cases hmem : e.path ∈ k.map Target.path
  · obtain ⟨x, hx, hpath⟩ := mem_map.mp hmem
    rw [← hplan.eq_of_path (h.mem x hx) he hpath]
    exact .inr (hback.restored rfl h.nodup x hx)
  · rw [hback.frame (.inl rfl) _ hmem, h.frame _ hmem htemporary]
    exact .inl rfl

theorem Broken.commitEnd (h : Broken files d k t) (hplan : Plan files d) {okay : Bool}
    (hback : RollBackEnd io t k okay u) (hcleared : Cleared (targets files) u v)
    (hgone : io.Removes → (∀ e ∈ targets files, u e.temporary ≠ some .folder) →
      ∀ e ∈ targets files, v e.temporary = none) :
    CommitEnd io files d (if okay then .restored else .rollbackFailed) v := by
  refine ⟨fun h => ?_, fun hokay f hf => ?_, fun hclean name hname => ?_, fun _ => ?_⟩
  · cases okay <;> cases h
  · cases okay with
    | false => cases hokay
    | true =>
      refine ⟨?_, h.target hplan hback hcleared (reserve_mem hf)⟩
      rcases h.target hplan hback hcleared (main_mem hf) with heq | hcontains
      · rw [Contains, show v f.path = d f.path from heq]
        exact hplan.originals f hf
      · exact hcontains
  · have hremoves : io.Removes := by
      rcases hclean with hokay | ⟨-, hremoves⟩ | ⟨hremoves, -⟩
      · cases okay <;> cases hokay
      · exact hremoves
      · exact hremoves
    have hframe : ∀ name, name ∉ k.map Target.path → u name = t name := by
      refine hback.frame ?_
      rcases hclean with hokay | ⟨hokay, -⟩ | ⟨-, hrestores, hfolder⟩
      · cases okay <;> cases hokay
      · cases okay with
        | true => exact .inl rfl
        | false => cases hokay
      · exact .inr ⟨hremoves, hrestores, fun e he => h.plain e he (hfolder e (h.mem e he))⟩
    have hk : name ∉ k.map Target.path := by
      intro hmem
      obtain ⟨e, he, rfl⟩ := mem_map.mp hmem
      exact hname (mem_map_of_mem (h.mem e he))
    by_cases htemporary : name ∈ (targets files).map Target.temporary
    · obtain ⟨e, he, rfl⟩ := mem_map.mp htemporary
      rw [hplan.fresh e he]
      refine hgone hremoves (fun x hx => ?_) e he
      have hpath : x.temporary ∉ k.map Target.path := by
        intro hmem
        obtain ⟨y, hy, hpath⟩ := mem_map.mp hmem
        exact hplan.apart (h.mem y hy) hx hpath
      rw [hframe _ hpath]
      exact h.temporaries x hx
    · rw [hcleared.frame htemporary, hframe name hk, h.frame name hk htemporary]
  · exact (h.complete.rolled hplan h.mem hback.rolled).cleared hplan hcleared

theorem sound_fail (h : Broken files d k t) (hplan : Plan files d) : Sound (Complete files) (do
        let okay ← io.rollBack k
        io.unlinkAll (targets files)
        return if okay then Outcome.restored else .rollbackFailed) t
      fun outcome v => outcome ≠ .committed ∧ CommitEnd io files d outcome v := by
  have hcomplete := fun u => h.complete.rolled (u := u) hplan h.mem
  refine sound_bind ((sound_rollBack k).mono hcomplete) fun okay u hback => ?_
  refine sound_bind ((sound_unlinkAll _ u).mono fun v => (hcomplete u hback.rolled).cleared hplan) ?_
  rintro - v ⟨hcleared, hgone⟩
  refine sound_pure ⟨?_, h.commitEnd hplan hback hcleared hgone⟩
  cases okay with
  | true | false => nofun

structure Ready (files : List DatabaseFile) (d : Disk) : Prop where
  originals : ∀ f ∈ files, Contains d f.path f.original ∧ f.original.length ≤ 32 * 2 ^ 20
  fresh : ∀ e ∈ targets files, d e.temporary = none
  distinct : ((targets files).map Target.path).Nodup
  plain : ∀ e ∈ targets files, d e.path ≠ some .folder

theorem sound_commitAll (h : Renamed files d done todo t) (hplan : Plan files d) :
    Sound (Complete files) (io.commitAll (targets files) done todo) t fun outcome u =>
      CommitEnd io files d outcome u ∧ (outcome = .committed → ∀ e ∈ targets files, d e.path ≠ some .folder) ∧
        (io.Quiet → (∀ e ∈ targets files, d e.path ≠ some .folder) → outcome = .committed) := by
  induction todo generalizing done t with
  | nil =>
    refine sound_pure ⟨h.commitEnd hplan, fun _ => ?_, fun _ _ => rfl⟩
    rw [h.split, append_nil]
    exact h.plain
  | cons e todo ih =>
    have he := h.mem_todo mem_cons_self
    obtain ⟨a, hsource⟩ := h.staged e mem_cons_self
    have hk : done ++ [e] <+: targets files := ⟨todo, by rw [h.split, append_assoc, singleton_append]⟩
    have hend {u : Disk} (hbroken : Broken files d (done ++ [e]) u)
        (hloud : io.Quiet → (∀ e ∈ targets files, d e.path ≠ some .folder) → False) :
        Sound (Complete files) _ u fun outcome u => CommitEnd io files d outcome u ∧
          (outcome = .committed → ∀ e ∈ targets files, d e.path ≠ some .folder) ∧
            (io.Quiet → (∀ e ∈ targets files, d e.path ≠ some .folder) → outcome = .committed) :=
      (sound_fail hbroken hplan).imp fun outcome u hu =>
        ⟨hu.2, fun hcommitted => absurd hcommitted hu.1, fun hquiet hfolder => (hloud hquiet hfolder).elim⟩
    refine sound_bind (sound_replace (Q := fun okay u =>
      (okay = true → Renamed files d (done ++ [e]) todo u) ∧ (okay = false → Broken files d (done ++ [e]) u ∧
        (io.Quiet → (∀ e ∈ targets files, d e.path ≠ some .folder) → False)))
      hsource (h.complete hplan) ?_ ?_ ?_ ?_) ?_
    · exact fun hfolder => (h.step hplan hfolder).complete hplan
    · exact fun hfolder => ⟨fun _ => h.step hplan hfolder, nofun⟩
    · refine fun hfolder hloud => ⟨nofun, fun _ => ⟨?_, fun hquiet _ => hloud hquiet⟩⟩
      exact (h.step hplan hfolder).broken hplan hk fun _ hx => hx
    · refine fun hfails => ⟨nofun, fun _ => ⟨?_, fun hquiet hfolder => ?_⟩⟩
      · exact h.broken hplan hk fun x hx => mem_append_left _ hx
      · rw [h.todo_eq hplan mem_cons_self] at hfails
        exact hquiet.not_exists (hfails (hfolder e he))
    · intro okay u hu
      cases okay with
      | true => exact ih (hu.1 rfl)
      | false => exact hend (hu.2 rfl).1 (hu.2 rfl).2

theorem sound_read {C : Disk → Prop} {path : Bytes} (hC : C d) : Sound C (io.read path) d fun found t => t = d ∧
      (∀ bytes, found = some bytes → Contains d path bytes ∧ bytes.length ≤ 32 * 2 ^ 20) ∧
        (io.Quiet → ∀ bytes, Contains d path bytes → bytes.length ≤ 32 * 2 ^ 20 → found = some bytes) := by
  refine sound_bind (sound_attempt (Q := fun okay t => t = d ∧ (io.Quiet → okay = true)) hC ?_ ?_) ?_
  · exact fun t ht => ⟨(Option.some.inj ht).symm, fun _ => rfl⟩
  · exact fun hfails => ⟨rfl, fun hquiet => absurd (hfails _ rfl) hquiet.not_exists⟩
  rintro okay t ⟨rfl, hquiet⟩
  cases okay with
  | false => exact sound_pure ⟨rfl, nofun, fun hq => absurd (hquiet hq) nofun⟩
  | true =>
    rw [if_pos rfl]
    refine sound_view ⟨rfl, fun bytes hbytes => ?_, ?_⟩
    · split at hbytes
      · rename_i bytes' a hfile
        obtain ⟨hlength, heq⟩ := Option.ite_none_right_eq_some.mp hbytes
        cases heq
        exact ⟨⟨a, hfile⟩, hlength⟩
      · cases hbytes
      · cases hbytes
      · cases hbytes
    · rintro - bytes ⟨a, ha⟩ hlength
      rw [ha]
      exact if_pos hlength

theorem sound_unchanged {C : Disk → Prop} (hC : C d) : Sound C (io.unchanged files) d fun okay t => t = d ∧
      (okay = true → ∀ f ∈ files, Contains d f.path f.original ∧ f.original.length ≤ 32 * 2 ^ 20) ∧
        (io.Quiet → (∀ f ∈ files, Contains d f.path f.original ∧ f.original.length ≤ 32 * 2 ^ 20) → okay = true) := by
  induction files with
  | nil => exact sound_pure ⟨rfl, fun _ => nofun, fun _ _ => rfl⟩
  | cons f files ih =>
    refine sound_bind (sound_read hC) ?_
    rintro found t ⟨rfl, hfound, hquiet⟩
    by_cases hsame : found = some f.original
    · rw [if_pos hsame]
      refine ih.imp ?_
      rintro okay t ⟨rfl, hall, hokay⟩
      refine ⟨rfl, fun h => forall_mem_cons.mpr ⟨hfound _ hsame, hall h⟩, fun hq h => ?_⟩
      exact hokay hq (forall_mem_cons.mp h).2
    · rw [if_neg hsame]
      refine sound_pure ⟨rfl, nofun, fun hq h => absurd ?_ hsame⟩
      have hf := h f mem_cons_self
      exact hquiet hq _ hf.1 hf.2

theorem Grown.complete (h : Grown d t) (horiginal : Original files d) : Complete files t := by
  intro f hf
  obtain ⟨a, ha⟩ := horiginal f hf
  have hsome : d f.path ≠ none := by
    rw [ha]
    nofun
  exact .inl ⟨a, (h f.path hsome).trans ha⟩

theorem Ready.nodup_temporary (h : Ready files d) : ((targets files).map Target.temporary).Nodup := by
  have hpaths := h.distinct.map (f := (· ++ ascii ".aera-new")) fun a b => append_cancel_right
  rwa [map_map] at hpaths

theorem sound_commit (io : Io) (files : List DatabaseFile) (d : Disk) :
    Sound (fun t => Original files d → Complete files t) (io.commit files) d fun outcome t =>
      CommitEnd io files d outcome t ∧ (io.Quiet → (outcome = .committed ↔ Ready files d)) := by
  have hstart : Original files d → Complete files d := fun h f hf => .inl (h f hf)
  refine sound_bind (sound_unchanged hstart) ?_
  rintro okay t ⟨rfl, hfound, hquiet⟩
  cases okay with
  | false =>
    refine sound_pure ⟨⟨nofun, nofun, fun _ _ _ => rfl, hstart⟩, fun hq => ⟨nofun, fun hready => ?_⟩⟩
    exact absurd (hquiet hq hready.originals) nofun
  | true =>
    have horiginal : Original files t := fun f hf => (hfound rfl f hf).1
    have hempty : Staged t [] t := ⟨nofun, nodup_nil, nofun, fun _ _ => rfl⟩
    refine sound_bind ((sound_stage hempty).mono fun u hu _ => hu.complete horiginal) fun error u hend => ?_
    cases error with
    | some error =>
      refine sound_pure ⟨⟨nofun, nofun, fun hclean name _ => ?_, fun _ => hend.grown.complete horiginal⟩, ?_⟩
      · rcases hclean with h | ⟨h, -⟩ | ⟨hremoves, -⟩
        · cases h
        · cases h
        · rw [hend.failed nofun hremoves]
      · exact fun hq => ⟨nofun, fun hready => absurd (hend.quiet hq hready.fresh hready.nodup_temporary) nofun⟩
    | none =>
      have hstaged := hend.staged rfl
      have hplan := hstaged.plan horiginal
      refine ((sound_commitAll hstaged.renamed hplan).mono fun u hu _ => hu).imp ?_
      rintro outcome v ⟨hv, hplain, hq⟩
      refine ⟨hv, fun hquiet => ⟨fun hcommitted => ?_, fun hready => hq hquiet hready.plain⟩⟩
      exact ⟨hfound rfl, hplan.fresh, hplan.nodup, hplain hcommitted⟩

end

/-- A commit that returns true has replaced every main file and every reserve copy. One that reports the original
database restored has left or restored every one of them. Nothing else is changed if the removals, and the renames that
restore, do not fail. Wherever a commit is interrupted, every main file is complete, and a later commit without errors
succeeds exactly if no temporary file is in its way. -/
theorem commit_recoverable (io : Io) (files : List DatabaseFile) (d : Disk) (n : Nat) :
    ((io.commit files ⟨d, n⟩).value = .committed → ∀ f ∈ files,
      Contains (io.commit files ⟨d, n⟩).final.state f.path f.replacement ∧
        Contains (io.commit files ⟨d, n⟩).final.state f.reserve f.replacement) ∧
    ((io.commit files ⟨d, n⟩).value = .restored → ∀ f ∈ files,
      Contains (io.commit files ⟨d, n⟩).final.state f.path f.original ∧
        ((io.commit files ⟨d, n⟩).final.state f.reserve = d f.reserve ∨
          Contains (io.commit files ⟨d, n⟩).final.state f.reserve f.original)) ∧
    ((io.commit files ⟨d, n⟩).value = .committed ∨ ((io.commit files ⟨d, n⟩).value = .restored ∧ io.Removes) ∨
        (io.Removes ∧ io.Restores ∧ ∀ e ∈ targets files, d e.path ≠ some .folder) →
      ∀ name, name ∉ (targets files).map Target.path → (io.commit files ⟨d, n⟩).final.state name = d name) ∧
    (Original files d → ∀ w, CrashPoint (io.commit files) ⟨d, n⟩ w → Complete files w.state ∧
      ∀ (io' : Io) (later : List DatabaseFile), io'.Quiet →
        ((io'.commit later w).value = .committed ↔ Ready later w.state)) := by
  have hsound := sound_commit io files d
  have hend := (hsound.value n).1
  refine ⟨hend.committed, hend.restored, hend.frame, fun horiginal w hw => ⟨?_, fun io' later hquiet => ?_⟩⟩
  · exact hsound.crashPoint (fun _ _ h => h.1.complete) hw horiginal
  · exact ((sound_commit io' later w.state).value w.calls).2 hquiet

def sampleFile : DatabaseFile := ⟨ascii "/p", [1], [2, 3], ⟨0o600, 1000, 1000, ascii "x"⟩⟩

def sampleDisk : Disk := fun path => if path = ascii "/p" then some (.file [1] sampleFile.attributes) else none

def sampleIo (failing : List Call) : Io := ⟨fun c _ => c ∈ failing, fun _ _ => 1⟩

theorem sampleDisk_original : Original [sampleFile] sampleDisk := by
  intro f hf
  rw [mem_singleton.mp hf]
  exact ⟨_, rfl⟩

theorem commit_recoverable_sample :
    (sampleIo []).Quiet ∧ ((sampleIo []).commit [sampleFile] ⟨sampleDisk, 0⟩).value = .committed ∧
      Contains ((sampleIo []).commit [sampleFile] ⟨sampleDisk, 0⟩).final.state (ascii "/p") [2, 3] ∧
      Ready [sampleFile] sampleDisk := by
  have hquiet : (sampleIo []).Quiet := fun _ _ => rfl
  have hvalue : ((sampleIo []).commit [sampleFile] ⟨sampleDisk, 0⟩).value = .committed := by decide +kernel
  obtain ⟨hcommitted, -, -, hcrash⟩ := commit_recoverable (sampleIo []) [sampleFile] sampleDisk 0
  have hstart : CrashPoint ((sampleIo []).commit [sampleFile]) ⟨sampleDisk, 0⟩ ⟨sampleDisk, 0⟩ :=
    .inl (mem_of_getElem? (i := 0) rfl)
  have hready := (hcrash sampleDisk_original _ hstart).2 (sampleIo []) [sampleFile] hquiet
  exact ⟨hquiet, hvalue, (hcommitted hvalue _ (mem_singleton_self _)).1, hready.mp hvalue⟩

/-- A commit that stops after its first call has made a file leaves that file, and every later commit fails on it. A
temporary file also stays when its removal fails. -/
theorem commit_blocked :
    (¬ ∀ (io : Io) (files : List DatabaseFile) (d : Disk) (n : Nat) (w : Counted Disk), Original files d →
      CrashPoint (io.commit files) ⟨d, n⟩ w → ∀ (io' : Io) (later : List DatabaseFile), io'.Quiet →
        later.map DatabaseFile.path = files.map DatabaseFile.path → Original later w.state →
          (io'.commit later w).value = .committed) ∧
    ¬ ∀ (io : Io) (files : List DatabaseFile) (d : Disk) (n : Nat), (io.commit files ⟨d, n⟩).value = .restored →
      ∀ e ∈ targets files, d e.temporary = none → (io.commit files ⟨d, n⟩).final.state e.temporary = none := by
  constructor
  · intro h
    have hcrash : CrashPoint ((sampleIo []).commit [sampleFile]) ⟨sampleDisk, 0⟩ _ :=
      .inl (mem_of_getElem? (i := 2) rfl)
    have hfound : Original [sampleFile] (draft sampleDisk (ascii "/p.reservecopy.aera-new") [] ⟨0o600, 0, 0, []⟩) := by
      intro f hf
      rw [mem_singleton.mp hf]
      exact ⟨_, rfl⟩
    have hlater := h _ _ _ _ _ sampleDisk_original hcrash (sampleIo []) [sampleFile] (fun _ _ => rfl) rfl hfound
    exact absurd hlater (by decide +kernel)
  · intro h
    have hgone := h (sampleIo [.rename (ascii "/p.aera-new") (ascii "/p"), .unlink (ascii "/p.aera-new")]) [sampleFile]
      sampleDisk 0 (by decide +kernel) ⟨sampleFile, ascii "/p"⟩ (main_mem (mem_singleton_self _)) (by decide +kernel)
    exact absurd hgone (by decide +kernel)

end AeraRecovery.Registration
