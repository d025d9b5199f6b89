import AeraRecovery.Lib.Commands

namespace AeraRecovery.Lib.Staging

open Commands Commands.Command List Function

variable {ε ν β κ ι γ : Type}

/-- A directory, the names that were created in it, and how many calls were made. -/
structure Output (ν β : Type) where
  files : ν → Option β
  created : List ν := []
  calls : Nat := 0

structure Opened (κ : Type) where
  contents : κ
  calls : Nat

/-- Which calls fail, and what a call that fails leaves in the file it was made on. -/
structure Faults (κ : Type) where
  fails : Nat → Bool
  left : Nat → κ

variable (faults : Faults κ)

def call (change : κ → κ) (e : ε) : Command ε (Opened κ) Unit :=
  ExceptT.mk fun s =>
    if faults.fails s.calls then (.error e, ⟨faults.left s.calls, s.calls + 1⟩)
    else (.ok (), ⟨change s.contents, s.calls + 1⟩)

def observe (e : ε) : Command ε (Opened κ) Unit :=
  attempt (fun s => if faults.fails s.calls then none else some ⟨s.contents, s.calls + 1⟩) e

section

variable {P : Opened κ → Prop} {faults : Faults κ} {E : ε → Opened κ → Prop}
  (hfault : ∀ n, faults.fails n = true → ∀ e s, E e s)

include hfault

theorem triple_observe {C : κ → Prop} {e : ε} :
    Triple (fun s => C s.contents) (observe faults e) (fun _ s => C s.contents) E := by
  refine triple_attempt (fun s s' hs hstep => ?_) fun s _ hstep => hfault s.calls ?_ _ _
  · rw [Option.ite_none_left_eq_some, Option.some_inj] at hstep
    rw [← hstep.2]
    exact hs
  · by_contra hcalm
    rw [if_neg hcalm] at hstep
    cases hstep

theorem triple_call {change : κ → κ} {e : ε} {Q : Unit → Opened κ → Prop}
    (h : ∀ s, P s → Q () ⟨change s.contents, s.calls + 1⟩) : Triple P (call faults change e) Q E := by
  intro s hs
  have hstart : (call faults change e).start s = if faults.fails s.calls
      then (.error e, ⟨faults.left s.calls, s.calls + 1⟩) else (.ok (), ⟨change s.contents, s.calls + 1⟩) := rfl
  rw [hstart]
  by_cases hfails : faults.fails s.calls = true
  · rw [if_pos hfails]
    exact hfault _ hfails _ _
  · rw [if_neg hfails]
    exact h s hs

end

variable [DecidableEq ν]

/-- Create a new file. A name that is taken is a failure. -/
def create (n : ν) (node : β) (e : ε) : Command ε (Output ν β) Unit :=
  attempt (fun w =>
    if faults.fails w.calls ∨ (w.files n).isSome then none
    else some ⟨update w.files n (some node), w.created ++ [n], w.calls + 1⟩) e

def onFile (node : κ → β) (empty : κ) (n : ν) (m : Command ε (Opened κ) γ) : Command ε (Output ν β) γ :=
  ExceptT.mk fun w =>
    let r := m.start ⟨empty, w.calls⟩
    (r.1, { w with files := update w.files n (some (node r.2.contents)), calls := r.2.calls })

/-- How the items are written: the file of each, the error if it cannot be created, and the command that fills it. -/
structure Plan (ε ν β κ ι γ : Type) where
  node : κ → β
  empty : κ
  name : ι → ν
  taken : ι → ε
  body : ι → Command ε (Opened κ) γ

def stage (faults : Faults κ) (plan : Plan ε ν β κ ι γ) : List ι → Command ε (Output ν β) (List γ)
  | [] => pure []
  | i :: items => do
      create faults (plan.name i) (plan.node plan.empty) (plan.taken i)
      let result ← onFile plan.node plan.empty (plan.name i) (plan.body i)
      let results ← stage faults plan items
      pure (result :: results)

def cleanUp (w : Output ν β) : ν → Option β := fun n => if n ∈ w.created then none else w.files n

def transact (m : Command ε (Output ν β) γ) (directory : ν → Option β) : Except ε γ × (ν → Option β) :=
  match m.start { files := directory } with
  | (.ok a, w) => (.ok a, w.files)
  | (.error e, w) => (.error e, cleanUp w)

structure Touched (before : ν → Option β) (w : Output ν β) : Prop where
  fresh : ∀ n ∈ w.created, before n = none
  other : ∀ n, n ∉ w.created → w.files n = before n

variable {w : Output ν β}

theorem Touched.cleanUp_eq {before : ν → Option β} (h : Touched before w) : cleanUp w = before := by
  funext n
  rw [cleanUp]
  by_cases hn : n ∈ w.created
  · rw [if_pos hn, h.fresh n hn]
  · rw [if_neg hn, h.other n hn]

structure Added (node : κ → β) (name : ι → ν) (Good : ι → κ → Prop) (items : List ι) (before after : ν → Option β) :
    Prop where
  distinct : (items.map name).Nodup
  fresh : ∀ i ∈ items, before (name i) = none
  file : ∀ i ∈ items, ∃ c, after (name i) = some (node c) ∧ Good i c
  other : ∀ n, n ∉ items.map name → after n = before n

variable {items : List ι}

omit [DecidableEq ν] in
theorem Added.of_zip {node : κ → β} {name : ι → ν} {Good : ι → κ → Prop} {results : List γ}
    {before after : ν → Option β}
    (h : Added node (fun x => name x.1) (fun x => Good x.1) (items.zip results) before after)
    (hlength : results.length = items.length) : Added node name Good items before after := by
  have hfirst := map_fst_zip (Nat.le_of_eq hlength.symm)
  have hname : (items.zip results).map (fun x => name x.1) = items.map name := by
    rw [← hfirst, map_map, hfirst]
    rfl
  have hmem : ∀ i ∈ items, ∃ x ∈ items.zip results, x.1 = i := fun i hi => mem_map.mp (hfirst.symm ▸ hi)
  refine ⟨hname ▸ h.distinct, ?_, ?_, fun n hn => h.other n (hname ▸ hn)⟩
  · intro i hi
    obtain ⟨x, hx, rfl⟩ := hmem i hi
    exact h.fresh x hx
  · intro i hi
    obtain ⟨x, hx, rfl⟩ := hmem i hi
    exact h.file x hx

structure Staged (plan : Plan ε ν β κ ι γ) (Good : ι × γ → κ → Prop) (before : ν → Option β) (done : List (ι × γ))
    (w : Output ν β) : Prop where
  created : w.created = done.map fun x => plan.name x.1
  added : Added plan.node (fun x => plan.name x.1) Good done before w.files

variable {plan : Plan ε ν β κ ι γ} {Good : ι × γ → κ → Prop} {before : ν → Option β} {faults : Faults κ}

omit [DecidableEq ν] in
theorem staged_nil : Staged plan Good before [] { files := before } :=
  ⟨rfl, nodup_nil, nofun, nofun, fun _ _ => rfl⟩

variable {done : List (ι × γ)}

omit [DecidableEq ν] in
theorem Staged.touched (h : Staged plan Good before done w) : Touched before w := by
  constructor
  · intro n hn
    rw [h.created] at hn
    obtain ⟨x, hx, rfl⟩ := mem_map.mp hn
    exact h.added.fresh x hx
  · intro n hn
    rw [h.created] at hn
    exact h.added.other n hn

structure Started (plan : Plan ε ν β κ ι γ) (Good : ι × γ → κ → Prop) (before : ν → Option β) (done : List (ι × γ))
    (i : ι) (w : Output ν β) : Prop where
  created : w.created = (done.map fun x => plan.name x.1) ++ [plan.name i]
  new : plan.name i ∉ done.map fun x => plan.name x.1
  free : before (plan.name i) = none
  others : ∃ files, Added plan.node (fun x => plan.name x.1) Good done before files ∧
    ∀ n, n ≠ plan.name i → w.files n = files n

variable {i : ι}

theorem triple_create {node : β} {e : ε} : Triple (Staged plan Good before done) (create faults (plan.name i) node e)
      (fun _ => Started plan Good before done i) fun _ => Touched before := by
  refine triple_attempt (fun w w' hw hstep => ?_) fun w hw _ => hw.touched
  rw [Option.ite_none_left_eq_some, not_or, Option.not_isSome_iff_eq_none, Option.some_inj] at hstep
  obtain ⟨⟨-, hfree⟩, rfl⟩ := hstep
  have hnew : plan.name i ∉ done.map fun x => plan.name x.1 := by
    intro hmem
    obtain ⟨x, hx, hname⟩ := mem_map.mp hmem
    obtain ⟨c, hc, -⟩ := hw.added.file x hx
    rw [hname, hfree] at hc
    cases hc
  refine ⟨congrArg (· ++ [plan.name i]) hw.created, hnew, ?_, w.files, hw.added, fun n hn => update_of_ne hn _ _⟩
  rw [← hw.added.other _ hnew, hfree]

section

variable (h : Started plan Good before done i w)

include h

omit [DecidableEq ν] in
theorem Started.touched : Touched before w := by
  obtain ⟨files, hadded, hsame⟩ := h.others
  constructor
  · intro n hn
    rw [h.created, mem_append, mem_singleton] at hn
    rcases hn with hn | rfl
    · obtain ⟨x, hx, rfl⟩ := mem_map.mp hn
      exact hadded.fresh x hx
    · exact h.free
  · intro n hn
    rw [h.created, mem_append, mem_singleton, not_or] at hn
    rw [hsame n hn.2, hadded.other n hn.1]

theorem Started.filled {result : γ} {c : κ} (hgood : Good (i, result) c) (calls : Nat) :
    Staged plan Good before (done ++ [(i, result)])
      ⟨update w.files (plan.name i) (some (plan.node c)), w.created, calls⟩ := by
  obtain ⟨files, hadded, hsame⟩ := h.others
  have hmap : (done ++ [(i, result)]).map (fun x => plan.name x.1) =
      (done.map fun x => plan.name x.1) ++ [plan.name i] := map_append
  refine ⟨h.created.trans hmap.symm, ?_, ?_, ?_, ?_⟩
  · rw [hmap, nodup_append_comm, singleton_append, nodup_cons]
    exact ⟨h.new, hadded.distinct⟩
  · intro x hx
    rcases mem_append.mp hx with hx | hx
    · exact hadded.fresh x hx
    · rw [mem_singleton.mp hx]
      exact h.free
  · intro x hx
    rcases mem_append.mp hx with hx | hx
    · obtain ⟨d, hd, hgoodd⟩ := hadded.file x hx
      have hne : plan.name x.1 ≠ plan.name i := fun heq => h.new (heq ▸ mem_map_of_mem hx)
      exact ⟨d, (update_of_ne hne _ _).trans ((hsame _ hne).trans hd), hgoodd⟩
    · rw [mem_singleton.mp hx]
      exact ⟨c, update_self _ _ _, hgood⟩
  · intro n hn
    rw [hmap, mem_append, mem_singleton, not_or] at hn
    exact (update_of_ne hn.2 _ _).trans ((hsame n hn.2).trans (hadded.other n hn.1))

theorem Started.update (node : β) (calls : Nat) :
    Started plan Good before done i ⟨update w.files (plan.name i) (some node), w.created, calls⟩ := by
  obtain ⟨files, hadded, hsame⟩ := h.others
  exact ⟨h.created, h.new, h.free, files, hadded, fun n hn => (update_of_ne hn _ _).trans (hsame n hn)⟩

end

theorem triple_onFile {m : Command ε (Opened κ) γ}
    (hbody : Triple (fun s => s.contents = plan.empty) m (fun result s => Good (i, result) s.contents)
      fun _ _ => True) : Triple (Started plan Good before done i) (onFile plan.node plan.empty (plan.name i) m)
      (fun result => Staged plan Good before (done ++ [(i, result)])) fun _ => Touched before := by
  intro w hw
  have hmatch := hbody ⟨plan.empty, w.calls⟩ rfl
  have hstart : (onFile plan.node plan.empty (plan.name i) m : Command ε (Output ν β) γ).start w =
      ((m.start ⟨plan.empty, w.calls⟩).1,
        ⟨update w.files (plan.name i) (some (plan.node (m.start ⟨plan.empty, w.calls⟩).2.contents)),
          w.created, (m.start ⟨plan.empty, w.calls⟩).2.calls⟩) := rfl
  rw [hstart]
  revert hmatch
  rcases m.start ⟨plan.empty, w.calls⟩ with ⟨e | result, s⟩
  · exact fun _ => (hw.update _ _).touched
  · exact fun hgood => hw.filled hgood _

theorem triple_stage_from (hbody : ∀ i ∈ items, Triple (fun s => s.contents = plan.empty) (plan.body i)
      (fun result s => Good (i, result) s.contents) fun _ _ => True) :
    Triple (Staged plan Good before done) (stage faults plan items)
      (fun results w => results.length = items.length ∧ Staged plan Good before (done ++ items.zip results) w)
      fun _ => Touched before := by
  induction items generalizing done with
  | nil => exact triple_pure fun w hw => ⟨rfl, by rwa [zip_nil_left, append_nil]⟩
  | cons i items ih =>
    obtain ⟨hi, hitems⟩ := forall_mem_cons.mp hbody
    refine triple_bind triple_create fun _ => triple_bind (triple_onFile hi) fun result => ?_
    refine triple_bind (ih hitems) fun results => triple_pure fun w hw => ?_
    rw [append_assoc, singleton_append] at hw
    exact ⟨congrArg (· + 1) hw.1, hw.2⟩

/-- The rule of the loop. A failure at any point has touched nothing but what it created. -/
theorem triple_stage (Good : ι × γ → κ → Prop)
    (hbody : ∀ i ∈ items, Triple (fun s => s.contents = plan.empty) (plan.body i)
      (fun result s => Good (i, result) s.contents) fun _ _ => True) :
    Triple (fun w => w = { files := before }) (stage faults plan items)
      (fun results w => results.length = items.length ∧ Staged plan Good before (items.zip results) w)
      fun _ => Touched before :=
  (triple_stage_from hbody).mono (fun _ hw => hw ▸ staged_nil) (fun _ _ hw => hw) fun _ _ hw => hw

def AllOrNothing (before : ν → Option β) (Q : γ → (ν → Option β) → Prop) : Except ε γ × (ν → Option β) → Prop
  | (.ok a, after) => Q a after
  | (.error _, after) => after = before

theorem allOrNothing_transact {m : Command ε (Output ν β) γ} {Q : γ → (ν → Option β) → Prop}
    (h : Triple (fun w => w = { files := before }) m (fun a w => Q a w.files) fun _ => Touched before) :
    AllOrNothing before Q (transact m before) := by
  have hmatch := h { files := before } rfl
  rw [transact]
  revert hmatch
  rcases m.start { files := before } with ⟨e | a, w⟩
  · exact Touched.cleanUp_eq
  · exact id

end AeraRecovery.Lib.Staging
