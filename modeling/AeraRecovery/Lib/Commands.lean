import AeraRecovery.Lib.Checks

namespace AeraRecovery.Lib.Commands

variable {ε σ α β : Type}

abbrev Command (ε σ α : Type) := ExceptT ε (StateM σ) α

namespace Command

def start (m : Command ε σ α) (s : σ) : Except ε α × σ := m.run.run s

/-- Change the state by a step that can fail. -/
def attempt (f : σ → Option σ) (e : ε) : Command ε σ Unit :=
  ExceptT.mk fun s => (f s).elim (.error e, s) fun s' => (.ok (), s')

theorem start_attempt (f : σ → Option σ) (e : ε) (s : σ) :
    (attempt f e).start s = (f s).elim (.error e, s) fun s' => (.ok (), s') :=
  rfl

end Command

open Command

/-- From a state in `P` the command ends with a result in `Q`, or fails with an error in `E`. -/
def Triple (P : σ → Prop) (m : Command ε σ α) (Q : α → σ → Prop) (E : ε → σ → Prop) : Prop :=
  ∀ s, P s → match m.start s with
    | (.ok a, s') => Q a s'
    | (.error e, s') => E e s'

variable {P P' : σ → Prop} {Q Q' : α → σ → Prop} {E : ε → σ → Prop} {m : Command ε σ α}

theorem Triple.ok {s s' : σ} {a : α} (h : Triple P m Q E) (hs : P s) (hm : m.start s = (.ok a, s')) : Q a s' := by
  have hmatch := h s hs
  rwa [hm] at hmatch

variable {e : ε}

theorem Triple.error {s s' : σ} (h : Triple P m Q E) (hs : P s) (hm : m.start s = (.error e, s')) :
    E e s' := by
  have hmatch := h s hs
  rwa [hm] at hmatch

theorem Triple.final {R : σ → Prop} {s : σ} (h : Triple P m (fun _ => R) fun _ => R) (hs : P s) : R (m.start s).2 := by
  have hmatch := h s hs
  revert hmatch
  rcases m.start s with ⟨e | a, s'⟩ <;> exact id

theorem triple_pure {a : α} (h : ∀ s, P s → Q a s) : Triple P (pure a : Command ε σ α) Q E := fun s hs => h s hs

theorem triple_throw (h : ∀ s, P s → E e s) : Triple P (throw e : Command ε σ α) Q E := fun s hs => h s hs

theorem triple_modify {f : σ → σ} {Q : PUnit → σ → Prop} (h : ∀ s, P s → Q ⟨⟩ (f s)) :
    Triple P (modify f : Command ε σ PUnit) Q E := fun s hs => h s hs

theorem start_bind (m : Command ε σ α) (f : α → Command ε σ β) (s : σ) : (m >>= f).start s = match m.start s with
      | (.ok a, s') => (f a).start s'
      | (.error e, s') => (.error e, s') := by
  change (ExceptT.run (m >>= f)).run s = _
  rw [ExceptT.run_bind, StateT.run_bind, start]
  change (match (m.run.run s).1 with
    | .ok a => (f a).run
    | .error e => pure (.error e)).run (m.run.run s).2 = _
  rcases m.run.run s with ⟨e | a, s'⟩ <;> rfl

theorem triple_bind {f : α → Command ε σ β} {R : α → σ → Prop} {Q : β → σ → Prop} (hm : Triple P m R E)
    (hf : ∀ a, Triple (R a) (f a) Q E) : Triple P (m >>= f) Q E := by
  intro s hs
  have hmatch := hm s hs
  rw [start_bind]
  revert hmatch
  rcases m.start s with ⟨e | a, s'⟩
  · exact id
  · exact hf a s'

theorem Triple.mono (h : Triple P m Q E) {E' : ε → σ → Prop} (hP : ∀ s, P' s → P s) (hQ : ∀ a s, Q a s → Q' a s)
    (hE : ∀ e s, E e s → E' e s) : Triple P' m Q' E' := by
  intro s hs
  have hmatch := h s (hP s hs)
  revert hmatch
  rcases m.start s with ⟨e | a, s'⟩
  · exact hE e s'
  · exact hQ a s'

theorem triple_and {φ : Prop} (h : φ → Triple P m Q E) : Triple (fun s => φ ∧ P s) m Q E := fun s hs => h hs.1 s hs.2

theorem triple_get {f : σ → Command ε σ β} {Q : β → σ → Prop} (h : ∀ s, P s → Triple (fun s' => s' = s) (f s) Q E) :
    Triple P (get >>= f) Q E := by
  intro s hs
  have hmatch := h s hs s rfl
  exact hmatch

theorem triple_ofExcept {x : Except ε α} (hok : ∀ a s, x = .ok a → P s → Q a s)
    (herror : ∀ e s, x = .error e → P s → E e s) : Triple P (ofExcept x) Q E := by
  intro s hs
  cases x with
  | ok a => exact hok a s rfl hs
  | error e => exact herror e s rfl hs

theorem triple_try {x : Except ε α} {f : α → Command ε σ β} {Q : β → σ → Prop}
    (hok : ∀ a, x = .ok a → Triple P (f a) Q E) (herror : ∀ e, x = .error e → ∀ s, P s → E e s) :
    Triple P (ofExcept x >>= f) Q E := by
  cases x with
  | ok a => exact hok a rfl
  | error e => exact herror e rfl

theorem triple_read {f : σ → Except ε α} :
    Triple P (get >>= fun s => (ofExcept (f s) : Command ε σ α)) (fun _ => P) fun _ => P :=
  triple_get fun _ hs => triple_ofExcept (fun _ _ _ h => h ▸ hs) fun _ _ _ h => h ▸ hs

theorem triple_check {c : Prop} [Decidable c] {f : Unit → Command ε σ β} {Q : β → σ → Prop}
    (hok : c → Triple P (f ()) Q E) (herror : ¬ c → ∀ s, P s → E e s) :
    Triple P (ofExcept (Checks.ensure c e) >>= f) Q E := by
  rw [Checks.ensure]
  refine triple_try (fun _ h => ?_) fun e' h => ?_
  all_goals split_ifs at h with hc
  · exact hok hc
  · cases h
    exact herror hc

theorem triple_attempt {f : σ → Option σ} {Q : Unit → σ → Prop} (hok : ∀ s s', P s → f s = some s' → Q () s')
    (herror : ∀ s, P s → f s = none → E e s) : Triple P (attempt f e) Q E := by
  intro s hs
  rw [start_attempt]
  cases h : f s with
  | none => exact herror s hs h
  | some s' => exact hok s s' hs h

theorem triple_forM {f : α → Command ε σ PUnit} {l : List α} {I : List α → σ → Prop}
    (hstep : ∀ done a todo, l = done ++ a :: todo → Triple (I done) (f a) (fun _ => I (done ++ [a])) E) :
    Triple (I []) (l.forM f) (fun _ => I l) E := by
  suffices h : ∀ done todo, l = done ++ todo → Triple (I done) (todo.forM f) (fun _ => I l) E from h [] l rfl
  intro done todo
  induction todo generalizing done with
  | nil =>
    intro hl
    rw [List.append_nil] at hl
    subst hl
    exact triple_pure fun s hs => hs
  | cons a todo ih =>
    intro hl
    have hl' : l = (done ++ [a]) ++ todo := by rw [hl, List.append_assoc, List.singleton_append]
    exact triple_bind (hstep done a todo hl) fun _ => ih (done ++ [a]) hl'

end AeraRecovery.Lib.Commands
