import Mathlib

namespace AeraRecovery.Lib.Division

open List

/-- A greedy division of weights into consecutive groups: the weight of the open group, and its number. -/
structure Counter where
  current : Nat
  group : Nat
  deriving DecidableEq

variable (target : Nat) (c : Counter)

def advance (weight : Nat) : Counter :=
  if c.current + weight ≠ 0 ∧ target ≠ 0 ∧ c.current + weight > target then ⟨0, c.group + 1⟩
  else ⟨c.current + weight, c.group⟩

def Counter.weight : Nat := c.group * (target + 1) + c.current

theorem weight_advance (w : Nat) :
    (advance target c w).weight target ≤ c.weight target + w := by
  rw [advance]
  split_ifs with h
  · have := h.2.2
    simp only [Counter.weight, add_mul]
    omega
  · simp only [Counter.weight]
    omega

theorem group_le_advance (w : Nat) : c.group ≤ (advance target c w).group := by
  rw [advance]
  split_ifs
  · exact Nat.le_succ _
  · exact le_rfl

theorem advance_zero (w : Nat) : advance 0 c w = ⟨c.current + w, c.group⟩ :=
  if_neg fun h => h.2.1 rfl

theorem lt_of_mul_share_le {g total shares : Nat} (hshares : 0 < shares)
    (h : g * (total / shares + 1 + 1) ≤ total) : g < shares := by
  by_contra hge
  have hmul : shares * (total / shares + 1) ≤ g * (total / shares + 1) :=
    Nat.mul_le_mul_right _ (Nat.le_of_not_lt hge)
  have hover : total < shares * (total / shares + 1) := Nat.lt_mul_div_succ total hshares
  have hstep : g * (total / shares + 1) ≤ g * (total / shares + 1 + 1) := Nat.mul_le_mul_left _ (Nat.le_succ _)
  omega

/-- How often a new bin is opened when weights go into bins one after another. -/
def splits (capacity : Nat) : Nat → List Nat → Nat
  | _, [] => 0
  | fill, w :: ws => if fill + w > capacity then 1 + splits capacity w ws else splits capacity (fill + w) ws

variable {α : Type}

theorem flatMap_filter_perm {numbers : List Nat} (hnodup : numbers.Nodup) (number : α → Nat) {l : List α}
    (h : ∀ a ∈ l, number a ∈ numbers) : (numbers.flatMap fun n => l.filter fun a => number a = n).Perm l := by
  induction l with
  | nil => simp
  | cons a l ih =>
    obtain ⟨ha, hl⟩ := forall_mem_cons.mp h
    have hsplit : ∀ n, ((a :: l).filter fun a => decide (number a = n)) =
        (if number a = n then [a] else []) ++ l.filter fun a => number a = n := by
      intro n
      by_cases hn : number a = n <;> simp [hn]
    have hone : (numbers.flatMap fun n => if number a = n then [a] else []) = [a] := by
      obtain ⟨before, after, rfl⟩ := append_of_mem ha
      have hbefore : ∀ n ∈ before, (if number a = n then [a] else []) = [] := by
        intro n hn
        rw [if_neg]
        rintro rfl
        exact (nodup_append.mp hnodup).2.2 _ hn _ mem_cons_self rfl
      have hafter : ∀ n ∈ after, (if number a = n then [a] else []) = [] := by
        intro n hn
        rw [if_neg]
        rintro rfl
        exact (nodup_cons.mp (nodup_append.mp hnodup).2.1).1 hn
      rw [flatMap_append, flatMap_cons, if_pos rfl, flatMap_eq_nil_iff.mpr hbefore, flatMap_eq_nil_iff.mpr hafter]
      rfl
    rw [flatMap_congr fun n _ => hsplit n]
    refine (flatMap_append_perm _ _ _).symm.trans ?_
    rw [hone]
    exact (ih hl).cons a

end AeraRecovery.Lib.Division
