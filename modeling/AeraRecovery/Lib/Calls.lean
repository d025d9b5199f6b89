import AeraRecovery.Lib.Commands
import AeraRecovery.Lib.FileSystem

namespace AeraRecovery.Lib.Calls

open Commands Command FileSystem List Bool

variable {ε ν β α γ : Type}

structure Machine (ν β : Type) where
  files : Files ν β
  calls : Nat

def files : Command ε (Machine ν β) (Files ν β) := do return (← get).files

def update (change : Files ν β → Files ν β) : Command ε (Machine ν β) PUnit :=
  modify fun m => { m with files := change m.files }

section

variable (fails : Nat → Bool)

def fault : Command ε (Machine ν β) Bool := do
  let m ← get
  set { m with calls := m.calls + 1 }
  return fails m.calls

def call (change : Files ν β → Option (Files ν β)) : Command ε (Machine ν β) Bool := do
  let m ← get
  match if fails m.calls then none else change m.files with
  | none =>
    set { m with calls := m.calls + 1 }
    return false
  | some f =>
    set (Machine.mk f (m.calls + 1))
    return true

/-- Visit the names a directory stream delivers. An error of `readdir` looks like the end of the directory. After a name
for which `body` fails the visit may stop. -/
def visit (stop : Command ε (Machine ν β) Bool) (body : ν → Command ε (Machine ν β) Bool) :
    List ν → Command ε (Machine ν β) Bool
  | [] => return true
  | n :: rest => do
      if ← fault fails then return true
      else if ← body n then visit stop body rest
      else if ← stop then return false
      else
        let _ ← visit stop body rest
        return false

variable [DecidableEq ν]

/-- Remove everything at `p`. With `always` the directory itself is tried even after something in it stayed. -/
def removeTree (always : Bool) : Nat → List ν → Command ε (Machine ν β) Bool
  | 0, _ => return false
  | room + 1, p => do
      if ← fault fails then return false
      else
        let f ← files
        match f.entry p with
        | none => return true
        | some .dir => do
            if ← fault fails then return false
            else
              let okay ← visit fails (pure false) (fun n => removeTree always room (p ++ [n])) (f.list p)
              if okay || always then
                let removed ← call fails (·.remove p)
                return removed && okay
              else return false
        | some (.file _) | some (.link _) | some .special => call fails (·.remove p)

end

def Quiet (fails : Nat → Bool) : Prop := ∀ n, fails n = false

def Dead (fails : Nat → Bool) : Prop := ∀ n, fails n = true

def Spec (P : Files ν β → Prop) (c : Command ε (Machine ν β) α) (Q : α → Files ν β → Prop)
    (E : ε → Files ν β → Prop) : Prop :=
  Triple (fun m => P m.files) c (fun a m => Q a m.files) fun e m => E e m.files

section

variable {fails : Nat → Bool} {P : Files ν β → Prop} {E : ε → Files ν β → Prop} {c d : Command ε (Machine ν β) α}
  {Q : α → Files ν β → Prop}

theorem spec_pure {a : α} (h : ∀ f, P f → Q a f) : Spec P (pure a : Command ε (Machine ν β) α) Q E :=
  triple_pure fun m => h m.files

theorem spec_throw {e : ε} (h : ∀ f, P f → E e f) : Spec P (throw e : Command ε (Machine ν β) α) Q E :=
  triple_throw fun m => h m.files

theorem spec_bind {k : α → Command ε (Machine ν β) γ} {R : α → Files ν β → Prop} {Q : γ → Files ν β → Prop}
    (hc : Spec P c R E) (hk : ∀ a, Spec (R a) (k a) Q E) : Spec P (c >>= k) Q E := triple_bind hc hk

theorem Spec.mono {P' : Files ν β → Prop} {Q' : α → Files ν β → Prop} (h : Spec P c Q E) (hP : ∀ f, P' f → P f)
    (hQ : ∀ a f, Q a f → Q' a f) : Spec P' c Q' E :=
  Triple.mono h (fun m => hP m.files) (fun a m => hQ a m.files) fun _ _ => id

theorem Spec.error {E' : ε → Files ν β → Prop} (h : Spec P c Q E) (hE : ∀ e f, E e f → E' e f) : Spec P c Q E' :=
  Triple.mono h (fun _ => id) (fun _ _ => id) fun e m => hE e m.files

theorem spec_fix (h : ∀ f, P f → Spec (· = f) c Q E) : Spec P c Q E := fun m hm => h m.files hm m rfl

variable {k : Files ν β → Command ε (Machine ν β) α}

theorem spec_files (h : ∀ f, P f → Spec (· = f) (k f) Q E) : Spec P (files >>= k) Q E := by
  intro m hm
  exact h m.files hm m rfl

theorem spec_return {f : Files ν β} {a : α} (h : Q a f) : Spec (· = f) (pure a : Command ε (Machine ν β) α) Q E :=
  spec_pure fun _ hf => hf ▸ h

theorem spec_here {f : Files ν β} (h : Spec (· = f) (k f) Q E) :
    Spec (· = f) (files >>= k) Q E := spec_files fun _ hf => hf.symm ▸ h

theorem spec_update {change : Files ν β → Files ν β} {Q : PUnit → Files ν β → Prop} (h : ∀ f, P f → Q ⟨⟩ (change f)) :
    Spec P (update change) Q E := triple_modify fun m => h m.files

theorem spec_fault (hfault : ¬ Quiet fails → Spec P c Q E) (hgo : ¬ Dead fails → Spec P d Q E) :
    Spec P (do if ← fault fails then c else d) Q E := by
  intro m hm
  have hstart : (do if ← fault fails then c else d).start m
      = (if fails m.calls then c else d).start { m with calls := m.calls + 1 } := rfl
  rw [hstart]
  cases h : fails m.calls with
  | false => exact hgo (fun hdead => false_ne_true (h.symm.trans (hdead _))) _ hm
  | true => exact hfault (fun hquiet => false_ne_true ((hquiet _).symm.trans h)) _ hm

theorem spec_call {change : Files ν β → Option (Files ν β)} {Q : Bool → Files ν β → Prop}
    (hok : ¬ Dead fails → ∀ f g, P f → change f = some g → Q true g)
    (hfail : ∀ f, P f → (Quiet fails → change f = none) → Q false f) : Spec P (call fails change) Q E := by
  intro m hm
  have hstart : (call fails change : Command ε _ _).start m
      = match if fails m.calls then none else change m.files with
        | none => (.ok false, { m with calls := m.calls + 1 })
        | some f => (.ok true, ⟨f, m.calls + 1⟩) := by
    change Command.start (match if fails m.calls then none else change m.files with
      | none => _
      | some f => _) m = _
    cases (if fails m.calls then none else change m.files) <;> rfl
  rw [hstart]
  cases h : fails m.calls with
  | true => exact hfail _ hm fun hquiet => absurd ((hquiet _).symm.trans h) false_ne_true
  | false =>
    cases hchange : change m.files with
    | none => exact hfail _ hm fun _ => hchange
    | some g => exact hok (fun hdead => false_ne_true (h.symm.trans (hdead _))) _ _ hm hchange

/-- The loop over a directory: the invariant speaks of the names visited and of the answers so far. -/
theorem spec_visit {stop : Command ε (Machine ν β) Bool} {body : ν → Command ε (Machine ν β) Bool} {l : List ν}
    {I : List ν → Bool → Files ν β → Prop} (hstop : ∀ P, Spec P stop (fun _ => P) E)
    (hstep : ∀ done n rest okay, l = done ++ n :: rest →
      Spec (I done okay) (body n) (fun b => I (done ++ [n]) (okay && b)) E) :
    Spec (I [] true) (visit fails stop body l)
      (fun okay g => ∃ done, done <+: l ∧ (Quiet fails → okay = true → done = l) ∧ I done okay g) E := by
  suffices h : ∀ rest done okay, l = done ++ rest → Spec (I done okay) (visit fails stop body rest)
      (fun b g => ∃ done, done <+: l ∧ (Quiet fails → b = true → done = l) ∧ I done (okay && b) g) E from h l [] true rfl
  intro rest
  induction rest with
  | nil =>
    intro done okay hl
    rw [append_nil] at hl
    refine spec_pure fun f hf => ⟨done, hl ▸ prefix_refl done, fun _ _ => hl.symm, ?_⟩
    rwa [Bool.and_true]
  | cons n rest ih =>
    intro done okay hl
    have hl' : l = (done ++ [n]) ++ rest := by rw [hl, append_assoc, singleton_append]
    refine spec_fault (fun hfault => spec_pure fun f hf => ?_) fun _ => ?_
    · refine ⟨done, hl ▸ prefix_append done _, fun hquiet => absurd hquiet hfault, ?_⟩
      rwa [Bool.and_true]
    refine spec_bind (hstep done n rest okay hl) fun b => ?_
    cases b with
    | true =>
      rw [Bool.and_true]
      exact ih (done ++ [n]) okay hl'
    | false =>
      rw [Bool.and_false]
      refine spec_bind (hstop _) fun b => ?_
      cases b with
      | true =>
        refine spec_pure fun f hf => ⟨done ++ [n], hl' ▸ prefix_append _ _, nofun, ?_⟩
        rwa [Bool.and_false]
      | false =>
        refine spec_bind (ih (done ++ [n]) false hl') fun b => spec_pure fun f hf => ?_
        obtain ⟨done, hdone, -, hI⟩ := hf
        refine ⟨done, hdone, nofun, ?_⟩
        rwa [Bool.and_false]

end

/-- Nothing changes but that paths below `p` disappear. -/
def Shrinks (p : List ν) (f g : Files ν β) : Prop := ∀ q, g.entry q = f.entry q ∨ p <+: q ∧ g.entry q = none

theorem Shrinks.refl (p : List ν) (f : Files ν β) : Shrinks p f f := fun _ => .inl rfl

variable {p : List ν} {f : Files ν β}

theorem Shrinks.trans {g h : Files ν β} (hfg : Shrinks p f g) (hgh : Shrinks p g h) : Shrinks p f h := by
  intro q
  rcases hgh q with hq | hq
  · rw [hq]
    exact hfg q
  · exact .inr hq

variable {f g : Files ν β} {p : List ν}

theorem Shrinks.mono {p' : List ν} (h : Shrinks p f g) (hp : p' <+: p) : Shrinks p' f g := by
  intro q
  exact (h q).imp_right fun hq => ⟨hp.trans hq.1, hq.2⟩

theorem Shrinks.frame {q : List ν} (h : Shrinks p f g) (hq : ¬ p <+: q) : g.entry q = f.entry q :=
  (h q).resolve_right fun hp => hq hp.1

theorem Shrinks.other {a n : ν} (h : Shrinks [a] f g) (hn : n ≠ a) (q : List ν) :
    g.entry (n :: q) = f.entry (n :: q) :=
  h.frame (apart_cons hn q []).2

theorem Shrinks.exists {q : List ν} (h : Shrinks p f g) (hq : g.entry q ≠ none) : g.entry q = f.entry q :=
  (h q).resolve_right fun hp => hq hp.2

theorem shrinks_remove [DecidableEq ν] (h : f.remove p = some g) : Shrinks p f g ∧ g.entry p = none := by
  rw [Shrinks, Files.entry_remove h]
  refine ⟨fun q => ?_, Function.update_self _ _ _⟩
  by_cases hq : q = p
  · rw [hq, Function.update_self]
    exact .inr ⟨prefix_refl p, rfl⟩
  · rw [Function.update_of_ne hq]
    exact .inl rfl

variable {fails : Nat → Bool}

/-- What a removal leaves behind. It is complete if no call fails and the recursion goes deep enough, and does nothing if
all of them fail. -/
structure Removal (fails : Nat → Bool) (room : Nat) (p : List ν) (f : Files ν β) (okay : Bool) (g : Files ν β) : Prop where
  shrinks : Shrinks p f g
  gone : okay = true → g.entry p = none
  complete : Quiet fails → p ≠ [] → 0 < room → (∀ q, f.entry (p ++ q) ≠ none → q.length < room) → okay = true
  dead : Dead fails → g = f

variable {room : Nat}

theorem removal_refl (f : Files ν β) (h : Quiet fails → False) : Removal fails room p f false f :=
  ⟨.refl p f, nofun, fun hquiet => (h hquiet).elim, fun _ => rfl⟩

theorem Removal.okay {okay : Bool} (h : Removal fails (f.depth + 1) p f okay g) (hquiet : Quiet fails) (hp : p ≠ []) :
    okay = true := by
  refine h.complete hquiet hp (Nat.succ_pos _) fun q hq => ?_
  have hlength := f.bounded _ hq
  rw [length_append] at hlength
  omega

variable [DecidableEq ν]

theorem spec_removeEntry {E : ε → Files ν β → Prop} (hentry : f.entry p ≠ none)
    (hlist : f.list p = []) : Spec (· = f) (call fails (·.remove p)) (Removal fails room p f) E := by
  refine spec_call ?_ ?_
  · rintro hlive f g rfl hg
    obtain ⟨hshrinks, hgone⟩ := shrinks_remove hg
    exact ⟨hshrinks, fun _ => hgone, fun _ _ _ _ => rfl, fun hdead => absurd hdead hlive⟩
  · rintro f rfl hnone
    refine ⟨.refl p f, nofun, fun hquiet hp _ _ => ?_, fun _ => rfl⟩
    obtain ⟨g, hg⟩ := f.remove_isSome hp hentry hlist
    cases hg.symm.trans (hnone hquiet)

theorem list_eq_nil_of_ne_dir (h : f.entry p ≠ some .dir) : f.list p = [] := by
  rw [f.list_eq_nil_iff]
  intro q hq
  by_contra hentry
  exact h (f.dir_of_append hq hentry)

/-- The invariant of the loop that empties the directory `p`. -/
structure Emptying (fails : Nat → Bool) (room : Nat) (p : List ν) (f : Files ν β) (done : List ν) (okay : Bool)
    (g : Files ν β) : Prop where
  shrinks : Shrinks p f g
  kept : g.entry p = f.entry p
  gone : okay = true → ∀ n ∈ done, g.entry (p ++ [n]) = none
  complete : Quiet fails → (∀ q, f.entry (p ++ q) ≠ none → q.length < room + 1) → okay = true

omit [DecidableEq ν] in
theorem Emptying.step {done : List ν} {g g' : Files ν β} {okay b : Bool} {n : ν}
    (h : Emptying fails room p f done okay g) (hn : f.entry (p ++ [n]) ≠ none)
    (hb : Removal fails room (p ++ [n]) g b g') : Emptying fails room p f (done ++ [n]) (okay && b) g' where
  shrinks := h.shrinks.trans (hb.shrinks.mono (prefix_append p [n]))
  kept := by
    rw [hb.shrinks.frame, h.kept]
    intro hp
    have hlength := hp.length_le
    rw [length_append, length_singleton] at hlength
    omega
  gone := by
    intro hokay m hm
    rw [and_eq_true] at hokay
    rcases mem_append.mp hm with hm | hm
    · rcases hb.shrinks (p ++ [m]) with hq | hq
      · rw [hq, h.gone hokay.1 m hm]
      · exact hq.2
    · rw [mem_singleton.mp hm]
      exact hb.gone hokay.2
  complete := by
    intro hquiet hfits
    rw [h.complete hquiet hfits, Bool.true_and]
    have hroom := hfits [n] hn
    refine hb.complete hquiet (append_ne_nil_of_right_ne_nil p (cons_ne_nil n [])) (by simpa using hroom) ?_
    intro q hq
    rw [h.shrinks.exists hq, append_assoc] at hq
    have hlength := hfits _ hq
    rw [length_append, length_singleton] at hlength
    omega

theorem Emptying.list_eq_nil (h : Emptying fails room p f (f.list p) true g) : g.list p = [] := by
  rw [eq_nil_iff_forall_not_mem]
  intro n hn
  rw [g.mem_list] at hn
  have hf := hn
  rw [h.shrinks.exists hn, ← f.mem_list] at hf
  exact hn (h.gone rfl n hf)

theorem spec_removeTree (always : Bool) {E : ε → Files ν β → Prop} (room : Nat) (p : List ν) (f : Files ν β) :
    Spec (· = f) (removeTree fails always room p) (Removal fails room p f) E := by
  induction room generalizing p f with
  | zero => exact spec_return ⟨.refl _ _, nofun, fun _ _ h => absurd h (Nat.lt_irrefl 0), fun _ => rfl⟩
  | succ room ih =>
    refine spec_fault (fun hfault => spec_return (removal_refl _ hfault)) fun hlive => spec_here ?_
    cases hentry : f.entry p with
    | none => exact spec_return ⟨.refl _ _, fun _ => hentry, fun _ _ _ _ => rfl, fun _ => rfl⟩
    | some e =>
      have hsome : f.entry p ≠ none := hentry ▸ Option.some_ne_none e
      cases e with
      | file _ | link _ | special =>
        exact spec_removeEntry hsome (list_eq_nil_of_ne_dir (by rw [hentry]; nofun))
      | dir =>
        refine spec_fault (fun hfault => spec_return (removal_refl _ hfault)) fun _ => ?_
        have hstep : ∀ done n rest okay, f.list p = done ++ n :: rest →
            Spec (Emptying fails room p f done okay) (removeTree fails always room (p ++ [n]))
              (fun b => Emptying fails room p f (done ++ [n]) (okay && b)) E := by
          intro done n rest okay hl
          have hn : n ∈ f.list p := by
            rw [hl]
            exact mem_append_right done mem_cons_self
          refine spec_fix fun g hg => ?_
          exact (ih (p ++ [n]) g).mono (fun _ h => h) fun b g' => hg.step (f.mem_list.mp hn)
        refine spec_bind ((spec_visit (fun _ => spec_pure fun _ h => h) hstep).mono ?_ fun _ _ h => h) fun okay => ?_
        · rintro m rfl
          exact ⟨.refl p _, rfl, fun _ => nofun, fun _ _ => rfl⟩
        by_cases hgo : (okay || always) = true
        · rw [if_pos hgo]
          refine spec_bind (spec_call (Q := fun removed => Removal fails (room + 1) p f (removed && okay)) ?_ ?_)
            fun removed => spec_pure fun m hm => hm
          · rintro - g g' ⟨done, -, -, h⟩ hg
            obtain ⟨hshrinks, hgone⟩ := shrinks_remove hg
            refine ⟨h.shrinks.trans hshrinks, fun _ => hgone, fun hquiet _ _ hfits => ?_, fun hdead => absurd hdead hlive⟩
            rw [Bool.true_and, h.complete hquiet hfits]
          · rintro g ⟨done, -, hall, h⟩ hnone
            refine ⟨h.shrinks, nofun, fun hquiet hp _ hfits => ?_, fun hdead => absurd hdead hlive⟩
            -- the emptied directory can be removed
            have hokay := h.complete hquiet hfits
            rw [hall hquiet hokay, hokay] at h
            obtain ⟨g', hg'⟩ := g.remove_isSome hp (h.kept ▸ hsome) h.list_eq_nil
            cases hg'.symm.trans (hnone hquiet)
        · rw [if_neg hgo]
          have hokay : okay = false := by
            cases okay with
            | false => rfl
            | true => exact absurd rfl hgo
          rintro m ⟨done, hdone, hall, h⟩
          refine ⟨h.shrinks, nofun, fun hquiet _ _ hfits => ?_, fun hdead => absurd hdead hlive⟩
          exact hokay.symm.trans (h.complete hquiet hfits)

end AeraRecovery.Lib.Calls
