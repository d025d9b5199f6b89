import Mathlib

namespace AeraRecovery.Lib.Crash

open List

variable {σ α β : Type}

/-- One uninterrupted run: its result, the state it ends in, and the state
before each of its durable mutations, oldest first. -/
structure Run (σ α : Type) where
  value : α
  final : σ
  passed : List σ

def Prog (σ α : Type) : Type := σ → Run σ α

instance : Monad (Prog σ) where
  pure a := fun s => ⟨a, s, []⟩
  bind p f := fun s =>
    let r := p s
    let q := f r.value r.final
    ⟨q.value, q.final, r.passed ++ q.passed⟩

/-- Read the state. Nothing durable happens, so this is not a crash point. -/
def observe (f : σ → α) : Prog σ α := fun s => ⟨f s, s, []⟩

def mutate (f : σ → α × σ) : Prog σ α := fun s => ⟨(f s).1, (f s).2, [s]⟩

/-- The state found after the run stopped behind some prefix of its mutations,
the complete run included. -/
def CrashPoint (p : Prog σ α) (s t : σ) : Prop := t ∈ (p s).passed ∨ t = (p s).final

theorem crashPoint_getD {p : Prog σ α} {s : σ} {n : Nat} (h : n < (p s).passed.length) :
    CrashPoint p s ((p s).passed.getD n s) := by
  rw [List.getD_eq_getElem?_getD, List.getElem?_eq_getElem h]
  exact .inl (List.getElem_mem h)

/-- Every crash point before the end satisfies `C`, and the result with the
last state satisfies `Q`. -/
def Safe (C : σ → Prop) (p : Prog σ α) (s : σ) (Q : α → σ → Prop) : Prop :=
  (∀ t ∈ (p s).passed, C t) ∧ Q (p s).value (p s).final

variable {C : σ → Prop} {p : Prog σ α} {s t : σ} {Q : α → σ → Prop}

theorem safe_pure {a : α} (h : Q a s) : Safe C (pure a : Prog σ α) s Q :=
  ⟨fun _ ht => absurd ht not_mem_nil, h⟩

theorem safe_observe {f : σ → α} (h : Q (f s) s) : Safe C (observe f) s Q :=
  ⟨fun _ ht => absurd ht not_mem_nil, h⟩

theorem safe_mutate {f : σ → α × σ} (hs : C s) (h : Q (f s).1 (f s).2) : Safe C (mutate f) s Q :=
  ⟨fun _ ht => mem_singleton.mp ht ▸ hs, h⟩

theorem safe_bind {f : α → Prog σ β} {R : α → σ → Prop} {Q : β → σ → Prop}
    (hp : Safe C p s R) (hf : ∀ a t, R a t → Safe C (f a) t Q) : Safe C (p >>= f) s Q := by
  obtain ⟨hpassed, hR⟩ := hp
  obtain ⟨hpassed', hQ⟩ := hf _ _ hR
  refine ⟨?_, hQ⟩
  intro t ht
  rcases mem_append.mp ht with h | h
  · exact hpassed t h
  · exact hpassed' t h

theorem Safe.imp {R : α → σ → Prop} (h : Safe C p s R) (hRQ : ∀ a t, R a t → Q a t) : Safe C p s Q :=
  ⟨h.1, hRQ _ _ h.2⟩

theorem Safe.mono {D : σ → Prop} (h : Safe C p s Q) (hCD : ∀ t, C t → D t) : Safe D p s Q :=
  ⟨fun t ht => hCD t (h.1 t ht), h.2⟩

theorem safe_ite {c : Prop} [Decidable c] {q : Prog σ α}
    (hp : c → Safe C p s Q) (hq : ¬ c → Safe C q s Q) : Safe C (if c then p else q) s Q := by
  by_cases h : c
  · rw [if_pos h]; exact hp h
  · rw [if_neg h]; exact hq h

theorem Safe.crashPoint (h : Safe C p s Q) (hQ : ∀ a t, Q a t → C t) (ht : CrashPoint p s t) : C t := by
  rcases ht with ht | rfl
  · exact h.1 t ht
  · exact hQ _ _ h.2

/-- Recovery procedures that may themselves be interrupted, any number of
times, keep what each single attempt keeps. -/
theorem interrupted_runs {ι : Type} {recover : ι → Prog σ α} (hrec : ∀ i s, C s → Safe C (recover i) s fun _ => C)
    (hs : C s) (ht : Relation.ReflTransGen (fun a b => ∃ i, CrashPoint (recover i) a b) s t) : C t := by
  induction ht with
  | refl => exact hs
  | tail _ hstep ih =>
    obtain ⟨i, hi⟩ := hstep
    exact (hrec i _ ih).crashPoint (fun _ _ h => h) hi

theorem bind_bind {γ : Type} (p : Prog σ α) (f : α → Prog σ β) (g : β → Prog σ γ) :
    p >>= f >>= g = p >>= fun a => f a >>= g := by
  funext s
  exact congrArg (Run.mk _ _) (append_assoc ..)

theorem crashPoint_bind {f : α → Prog σ β} :
    CrashPoint (p >>= f) s t ↔ t ∈ (p s).passed ∨ CrashPoint (f (p s).value) (p s).final t := by
  change t ∈ _ ++ _ ∨ t = _ ↔ _
  rw [mem_append, or_assoc]
  rfl

/-- Every state of a run is in this relation to the one it started in. -/
def Stays (R : σ → σ → Prop) (p : Prog σ α) : Prop := ∀ s, Safe (R s) p s fun _ => R s

section

variable {R : σ → σ → Prop} (hrefl : ∀ s, R s s) (htrans : ∀ s t u, R s t → R t u → R s u)

include hrefl in
theorem stays_pure (a : α) : Stays R (pure a) := fun s => safe_pure (hrefl s)

include hrefl in
theorem stays_observe (f : σ → α) : Stays R (observe f) := fun s => safe_observe (hrefl s)

include hrefl in
theorem stays_mutate {f : σ → α × σ} (h : ∀ s, R s (f s).2) : Stays R (mutate f) := fun s => safe_mutate (hrefl s) (h s)

include htrans in
theorem Stays.bind {f : α → Prog σ β} (hp : Stays R p) (hf : ∀ a, Stays R (f a)) : Stays R (p >>= f) := by
  intro s
  refine safe_bind (hp s) fun a t ht => ?_
  exact ((hf a t).mono fun u hu => htrans s t u ht hu).imp fun _ u hu => htrans s t u ht hu

theorem stays_ite {c : Prop} [Decidable c] {q : Prog σ α} (hp : Stays R p) (hq : Stays R q) :
    Stays R (if c then p else q) :=
  fun s => safe_ite (fun _ => hp s) fun _ => hq s

end

end AeraRecovery.Lib.Crash
