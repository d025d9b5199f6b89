import Mathlib

namespace AeraRecovery.Lib.Ranges

open List

def count (l : List (Nat × Nat)) : Nat := (l.map fun r => r.2 - r.1).sum

def numbers (l : List (Nat × Nat)) : List Nat := l.flatMap fun r => range' r.1 (r.2 - r.1)

variable {l l' : List (Nat × Nat)}

@[simp]
theorem numbers_nil : numbers [] = [] := rfl

@[simp]
theorem numbers_cons (r : Nat × Nat) (l : List (Nat × Nat)) :
    numbers (r :: l) = range' r.1 (r.2 - r.1) ++ numbers l := rfl

theorem numbers_append (l l' : List (Nat × Nat)) : numbers (l ++ l') = numbers l ++ numbers l' :=
  flatMap_append

theorem numbers_concat (l : List (Nat × Nat)) (r : Nat × Nat) :
    numbers (l ++ [r]) = numbers l ++ range' r.1 (r.2 - r.1) := by
  rw [numbers_append, numbers_cons, numbers_nil, append_nil]

theorem length_numbers (l : List (Nat × Nat)) : (numbers l).length = count l := by
  rw [numbers, length_flatMap, count]
  simp only [length_range']

theorem range'_mul (size a n : Nat) :
    range' (a * size) (n * size) = (range' a n).flatMap fun k => range' (k * size) size := by
  induction n generalizing a with
  | zero => rw [zero_mul, range'_zero, range'_zero, flatMap_nil]
  | succ n ih =>
    rw [range'_succ, flatMap_cons, ← ih, Nat.succ_mul, add_comm (n * size), ← range'_append_1, Nat.succ_mul]

section

variable {a n i j : Nat} {rest : List Nat}

theorem window_skip (hi : n ≤ i) (hj : n ≤ j) :
    ((range' a n ++ rest).take j).drop i = (rest.take (j - n)).drop (i - n) := by
  rw [take_append, length_range', take_range'_of_length_le hj, drop_append, length_range',
    drop_of_length_le (by rwa [length_range']), nil_append]

theorem window_inside (hj : j ≤ n) : ((range' a n ++ rest).take j).drop i = range' (a + i) (j - i) := by
  rw [take_append_of_le_length (by rwa [length_range']), take_range'_of_length_ge hj, drop_range', mul_one]

theorem window_across (hi : i ≤ n) (hj : n ≤ j) :
    ((range' a n ++ rest).take j).drop i = range' (a + i) (n - i) ++ rest.take (j - n) := by
  rw [take_append, length_range', take_range'_of_length_le hj,
    drop_append_of_le_length (by rwa [length_range']), drop_range', mul_one]

end

theorem getLast?_numbers {r : Nat × Nat} (hlast : l.getLast? = some r) (hr : r.1 < r.2) :
    (numbers l).getLast? = some (r.2 - 1) := by
  obtain ⟨init, rfl⟩ := getLast?_eq_some_iff.mp hlast
  obtain ⟨n, hn⟩ : ∃ n, r.2 - r.1 = n + 1 := ⟨r.2 - r.1 - 1, by omega⟩
  rw [numbers_concat, hn, range'_concat, ← append_assoc, getLast?_concat]
  congr 1
  omega

end AeraRecovery.Lib.Ranges
