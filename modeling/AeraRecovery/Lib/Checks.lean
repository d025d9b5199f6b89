import Mathlib

namespace AeraRecovery.Lib.Checks

open List

variable {ε α β κ : Type}

def ensure (c : Prop) [Decidable c] (e : ε) : Except ε Unit := if c then .ok () else .error e

variable {e : ε}

@[simp]
theorem ensure_ok_iff {c : Prop} [Decidable c] {u : Unit} : ensure c e = .ok u ↔ c := by
  by_cases h : c <;> simp [ensure, h]

variable {f : α → Except ε β}

variable {x : Except ε α}

@[simp]
theorem bind_ok_iff {b : β} : (x >>= f) = .ok b ↔ ∃ a, x = .ok a ∧ f a = .ok b := by
  cases x <;> simp [bind, Except.bind]

theorem ok_of_ensure_bind {c : Prop} [Decidable c] {k : Unit → Except ε β} {b : β} (h : (ensure c e >>= k) = .ok b) :
    k () = .ok b := by
  obtain ⟨_, _, hk⟩ := bind_ok_iff.mp h
  exact hk

variable {a : α}

@[simp]
theorem pure_ok_iff {b : α} : (pure a : Except ε α) = .ok b ↔ a = b := by
  simp [pure, Except.pure]

variable {l : List α}

theorem forM_ok_iff {f : α → Except ε Unit} {u : Unit} : l.forM f = .ok u ↔ ∀ a ∈ l, f a = .ok () := by
  induction l with
  | nil => exact iff_of_true rfl nofun
  | cons a l ih =>
    change (f a >>= fun _ => l.forM f) = .ok u ↔ _
    rw [bind_ok_iff, forall_mem_cons, ← ih]
    exact ⟨fun ⟨_, h₁, h₂⟩ => ⟨h₁, h₂⟩, fun ⟨h₁, h₂⟩ => ⟨(), h₁, h₂⟩⟩

theorem mapM_ok_mem {out : List β} (h : l.mapM f = .ok out) :
    (∀ b ∈ out, ∃ a ∈ l, f a = .ok b) ∧ ∀ a ∈ l, ∃ b ∈ out, f a = .ok b := by
  induction l generalizing out with
  | nil =>
    obtain rfl := pure_ok_iff.mp h
    exact ⟨nofun, nofun⟩
  | cons a l ih =>
    simp only [mapM_cons, bind_ok_iff, pure_ok_iff] at h
    obtain ⟨b, hb, rest, hrest, rfl⟩ := h
    obtain ⟨hout, hin⟩ := ih hrest
    constructor
    · rw [forall_mem_cons]
      refine ⟨⟨a, mem_cons_self, hb⟩, fun b' hb' => ?_⟩
      obtain ⟨a', ha', hf⟩ := hout b' hb'
      exact ⟨a', mem_cons_of_mem _ ha', hf⟩
    · rw [forall_mem_cons]
      refine ⟨⟨b, mem_cons_self, hb⟩, fun a' ha' => ?_⟩
      obtain ⟨b', hb', hf⟩ := hin a' ha'
      exact ⟨b', mem_cons_of_mem _ hb', hf⟩

theorem mapM_ok_map {g : α → β} {out : List β} (h : l.mapM f = .ok out)
    (hg : ∀ a b, f a = .ok b → b = g a) : out = l.map g := by
  induction l generalizing out with
  | nil => exact (pure_ok_iff.mp h).symm
  | cons a l ih =>
    simp only [mapM_cons, bind_ok_iff, pure_ok_iff] at h
    obtain ⟨b, hb, rest, hrest, rfl⟩ := h
    rw [map_cons, ih hrest, hg a b hb]

theorem bind_error_iff : (x >>= f) = .error e ↔ x = .error e ∨ ∃ a, x = .ok a ∧ f a = .error e := by
  cases x <;> simp [bind, Except.bind]

theorem mapM_error_mem (h : l.mapM f = .error e) : ∃ a ∈ l, f a = .error e := by
  induction l with
  | nil => cases h
  | cons a l ih =>
    rw [mapM_cons, bind_error_iff] at h
    rcases h with h | ⟨b, -, h⟩
    · exact ⟨a, mem_cons_self, h⟩
    · rcases bind_error_iff.mp h with h | ⟨bs, -, h⟩
      · obtain ⟨a', ha', hf⟩ := ih h
        exact ⟨a', mem_cons_of_mem _ ha', hf⟩
      · cases h

/-- The value of a step that can fail, or the error `e`. -/
def require (x : Option α) (e : ε) : Except ε α :=
  match x with
  | none => .error e
  | some a => .ok a

@[simp]
theorem require_ok_iff {x : Option α} : require x e = .ok a ↔ x = some a := by
  cases x <;> simp [require]

/-- Whatever stops the computation satisfies `E`. -/
def Errors (E : ε → Prop) (x : Except ε α) : Prop := ∀ e, x = .error e → E e

variable {E : ε → Prop}

theorem errors_pure : Errors E (pure a : Except ε α) := nofun

theorem errors_ensure {c : Prop} [Decidable c] (h : E e) : Errors E (ensure c e) := by
  intro e' he
  rw [ensure] at he
  split_ifs at he
  cases he
  exact h

theorem errors_require {x : Option α} (h : E e) : Errors E (require x e) := by
  intro e' he
  cases x with
  | none =>
    cases he
    exact h
  | some a => cases he

theorem errors_bind (hx : Errors E x) (hf : ∀ a, x = .ok a → Errors E (f a)) : Errors E (x >>= f) := by
  intro e he
  rcases bind_error_iff.mp he with he | ⟨a, ha, he⟩
  · exact hx e he
  · exact hf a ha e he

theorem nodup_concat (hl : l.Nodup) (ha : a ∉ l) : (l ++ [a]).Nodup := by
  rw [nodup_append_comm, singleton_append, nodup_cons]
  exact ⟨ha, hl⟩

/-- Record the key of a valid element. An invalid element or a key met before is an error. -/
def insertNew [DecidableEq κ] (key : α → κ) (valid : α → Prop) [DecidablePred valid] (e : α → ε) (seen : List κ)
    (a : α) : Except ε (List κ) := do
  ensure (valid a ∧ key a ∉ seen) (e a)
  pure (seen ++ [key a])

section

variable [DecidableEq κ] {key : α → κ} {valid : α → Prop} [DecidablePred valid] {e : α → ε}

theorem foldlM_insertNew_from {seen out : List κ} (hseen : seen.Nodup) :
    l.foldlM (insertNew key valid e) seen = .ok out ↔
      (∀ a ∈ l, valid a) ∧ (seen ++ l.map key).Nodup ∧ out = seen ++ l.map key := by
  induction l generalizing seen with
  | nil =>
    simp only [foldlM_nil, pure_ok_iff, not_mem_nil, false_implies, implies_true, map_nil,
      append_nil, hseen, true_and]
    exact eq_comm
  | cons a l ih =>
    have hsplit : seen ++ (a :: l).map key = (seen ++ [key a]) ++ l.map key := by simp
    have hfresh : (seen ++ [key a]).Nodup ↔ key a ∉ seen := by
      rw [nodup_append_comm, singleton_append, nodup_cons]
      exact and_iff_left hseen
    rw [foldlM_cons, bind_ok_iff, forall_mem_cons, hsplit]
    simp only [insertNew, bind_ok_iff, ensure_ok_iff, pure_ok_iff, exists_const]
    constructor
    · rintro ⟨next, ⟨⟨hvalid, hnew⟩, rfl⟩, hrest⟩
      obtain ⟨hall, hnodup, hout⟩ := (ih (hfresh.mpr hnew)).mp hrest
      exact ⟨⟨hvalid, hall⟩, hnodup, hout⟩
    · rintro ⟨⟨hvalid, hall⟩, hnodup, hout⟩
      have hnew : (seen ++ [key a]).Nodup := hnodup.sublist (sublist_append_left _ _)
      exact ⟨_, ⟨⟨hvalid, hfresh.mp hnew⟩, rfl⟩, (ih hnew).mpr ⟨hall, hnodup, hout⟩⟩

theorem foldlM_insertNew_ok_iff {out : List κ} :
    l.foldlM (insertNew key valid e) [] = .ok out ↔ (∀ a ∈ l, valid a) ∧ (l.map key).Nodup ∧ out = l.map key := by
  rw [foldlM_insertNew_from nodup_nil, nil_append]

end

end AeraRecovery.Lib.Checks
