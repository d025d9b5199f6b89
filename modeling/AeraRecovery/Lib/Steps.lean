import AeraRecovery.Lib.Checks

namespace AeraRecovery.Lib.Steps

open Checks List Function Option

variable {ε σ α : Type}

theorem toOption_foldlM (f : σ → α → Except ε σ) (l : List α) (s : σ) :
    (l.foldlM f s).toOption = l.foldlM (fun s a => (f s a).toOption) s := by
  induction l generalizing s with
  | nil => rfl
  | cons a l ih =>
    simp only [foldlM_cons]
    cases h : f s a with
    | error e => rfl
    | ok s' => exact ih s'

def Commute (f : σ → α → Option σ) (a b : α) : Prop := ∀ s, (f s a).bind (f · b) = (f s b).bind (f · a)

variable {a : α}

theorem Commute.symm {f : σ → α → Option σ} {b : α} (h : Commute f a b) : Commute f b a := fun s => (h s).symm

/-- A run of steps that commute in pairs does not depend on their order, neither in whether it gets through nor in
where it ends. -/
theorem foldlM_perm {f : σ → α → Option σ} {l l' : List α} (hp : l.Perm l') (hcomm : l.Pairwise (Commute f)) (s : σ) :
    l.foldlM f s = l'.foldlM f s := by
  induction hp generalizing s with
  | nil => rfl
  | cons a hp ih =>
    have hrest := (pairwise_cons.mp hcomm).2
    exact congrArg (f s a).bind (funext fun s' => ih hrest s')
  | swap a b l =>
    have hab : Commute f b a := (pairwise_cons.mp hcomm).1 a mem_cons_self
    simp only [foldlM_cons, bind_eq_bind, ← bind_assoc]
    rw [hab s]
  | trans hp₁ _ ih₁ ih₂ =>
    rw [ih₁ hcomm, ih₂ ((hp₁.pairwise_iff Commute.symm).mp hcomm)]

variable {f : σ → α → Except ε σ} {l : List α}

variable {s s' : σ} {I : σ → Prop}

theorem foldlM_invariant
    (hstep : ∀ a ∈ l, ∀ s s', I s → f s a = .ok s' → I s') (hs : I s) (h : l.foldlM f s = .ok s') : I s' := by
  induction l generalizing s with
  | nil => exact pure_ok_iff.mp h ▸ hs
  | cons a l ih =>
    obtain ⟨next, hnext, hrest⟩ := bind_ok_iff.mp h
    have hkeep := (forall_mem_cons.mp hstep).2
    exact ih hkeep (hstep a mem_cons_self s next hs hnext) hrest

theorem errors_foldlM {E : ε → Prop}
    (hstep : ∀ a s s', I s → f s a = .ok s' → I s') (herror : ∀ a s, I s → Errors E (f s a)) (hs : I s) :
    Errors E (l.foldlM f s) := by
  induction l generalizing s with
  | nil => exact errors_pure
  | cons a l ih => exact errors_bind (herror a s hs) fun next hnext => ih (hstep a s next hs hnext)

theorem foldlM_prefix {I : List α → σ → Prop}
    (hstep : ∀ done a s s', I done s → f s a = .ok s' → I (done ++ [a]) s') (hs : I [] s)
    (h : l.foldlM f s = .ok s') : I l s' := by
  suffices hfrom : ∀ todo done s, I done s → todo.foldlM f s = .ok s' → I (done ++ todo) s' from hfrom l [] s hs h
  intro todo
  induction todo with
  | nil =>
    intro done s hs h
    rw [append_nil]
    exact pure_ok_iff.mp h ▸ hs
  | cons a todo ih =>
    intro done s hs h
    obtain ⟨next, hnext, hrest⟩ := bind_ok_iff.mp h
    rw [append_cons]
    exact ih _ next (hstep done a s next hs hnext) hrest

theorem foldlM_establishes {κ : Type} (key : α → κ) {P : α → σ → Prop} (hmake : ∀ a s s', f s a = .ok s' → P a s')
    (hkeep : ∀ a c s s', key c ≠ key a → P c s → f s a = .ok s' → P c s') (hkeys : (l.map key).Nodup)
    (h : l.foldlM f s = .ok s') : ∀ a ∈ l, P a s' := by
  induction l generalizing s with
  | nil => exact fun a ha => absurd ha not_mem_nil
  | cons a l ih =>
    obtain ⟨next, hnext, hrest⟩ := bind_ok_iff.mp h
    rw [map_cons, nodup_cons] at hkeys
    rw [forall_mem_cons]
    constructor
    · apply foldlM_invariant (I := P a) _ (hmake a s next hnext) hrest
      intro c hc t t' hP hc'
      apply hkeep c a t t' _ hP hc'
      intro heq
      exact hkeys.1 (heq ▸ mem_map_of_mem hc)
    · exact ih hkeys.2 hrest

variable {step : σ → α → Option σ}

/-- The invariant rule of a transition system given by a partial step function. -/
theorem run_invariant
    (hstep : ∀ s a s', I s → step s a = some s' → I s') (hs : I s) (h : l.foldlM step s = some s') : I s' := by
  induction l generalizing s with
  | nil => exact some.inj h ▸ hs
  | cons a l ih =>
    obtain ⟨next, hnext, hrest⟩ := bind_eq_some_iff.mp h
    exact ih (hstep s a next hs hnext) hrest

/-- The states after the runs whose steps all meet `P`. -/
inductive Reaches (step : σ → α → Option σ) (P : σ → α → Prop) (s : σ) : σ → Prop
  | refl : Reaches step P s s
  | step {t u : σ} {a : α} (h : Reaches step P s t) (hP : P t a) (hstep : step t a = some u) : Reaches step P s u

variable {P : σ → α → Prop} {t : σ}

theorem Reaches.invariant
    (h : Reaches step P s t) (hs : I s) (hstep : ∀ s a s', I s → P s a → step s a = some s' → I s') : I t := by
  induction h with
  | refl => exact hs
  | step _ hP hstep' ih => exact hstep _ _ _ ih hP hstep'

theorem Reaches.mono {Q : σ → α → Prop} (h : Reaches step P s t)
    (hPQ : ∀ s a, P s a → Q s a) : Reaches step Q s t := by
  induction h with
  | refl => exact .refl
  | step _ hP hstep ih => exact .step ih (hPQ _ _ hP) hstep

theorem Reaches.foldlM {u : σ} (h : Reaches step P s t)
    (hrun : l.foldlM step t = some u) (hP : ∀ a ∈ l, ∀ v, P v a) : Reaches step P s u := by
  induction l generalizing t with
  | nil => exact some.inj hrun ▸ h
  | cons a l ih =>
    obtain ⟨next, hnext, hrest⟩ := bind_eq_some_iff.mp hrun
    obtain ⟨ha, hl⟩ := forall_mem_cons.mp hP
    exact ih (h.step (ha t) hnext) hrest hl

theorem reaches_of_foldlM (h : l.foldlM step s = some t) : Reaches step (fun _ _ => True) s t :=
  Reaches.refl.foldlM h fun _ _ _ => trivial

section

variable {state : Nat → α} {j k : Nat} {c : α} (h : update state k a j = c)

include h

theorem update_cases : (j = k ∧ a = c) ∨ (j ≠ k ∧ state j = c) := by
  by_cases hjk : j = k
  · rw [hjk, update_self] at h
    exact .inl ⟨hjk, h⟩
  · rw [update_of_ne hjk] at h
    exact .inr ⟨hjk, h⟩

theorem of_update (hne : a ≠ c) : j ≠ k ∧ state j = c := (update_cases h).resolve_left fun hjk => hne hjk.2

end

theorem sum_threads_update {n k : Nat} (hk : k < n) (weight : Nat → α → Nat) (state : Nat → α) (a : α) :
    (∑ i ∈ Finset.range n, weight i (update state k a i)) + weight k (state k) =
      (∑ i ∈ Finset.range n, weight i (state i)) + weight k a := by
  have hmem := Finset.mem_range.mpr hk
  have hothers : ∑ i ∈ (Finset.range n).erase k, weight i (update state k a i) =
      ∑ i ∈ (Finset.range n).erase k, weight i (state i) := by
    refine Finset.sum_congr rfl fun i hi => ?_
    rw [update_of_ne (Finset.ne_of_mem_erase hi)]
  rw [← Finset.add_sum_erase _ _ hmem, ← Finset.add_sum_erase _ (fun i => weight i (state i)) hmem, hothers,
    update_self]
  omega

theorem index_eq_of_key {κ : Type} {key : α → κ} {i j : Nat} {c : α} (hkeys : (l.map key).Nodup)
    (hi : l[i]? = some a) (hj : l[j]? = some c) (h : key a = key c) : i = j := by
  have hlt : i < (l.map key).length := by
    rw [length_map]
    exact (List.getElem?_eq_some_iff.mp hi).1
  rw [← getElem?_inj hlt hkeys, getElem?_map, getElem?_map, hi, hj, map_some, map_some, h]

end AeraRecovery.Lib.Steps
