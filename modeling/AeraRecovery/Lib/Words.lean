import Mathlib

namespace AeraRecovery.Lib.Words

structure Arithmetic where
  add : Nat → Nat → Option Nat
  sub : Nat → Nat → Option Nat
  mul : Nat → Nat → Option Nat

def wrapping : Arithmetic where
  add a b := some ((a + b) % 2 ^ 64)
  sub a b := some ((a + (2 ^ 64 - b)) % 2 ^ 64)
  mul a b := some (a * b % 2 ^ 64)

def strict : Arithmetic where
  add a b := if a + b < 2 ^ 64 then some (a + b) else none
  sub a b := if b ≤ a then some (a - b) else none
  mul a b := if a * b < 2 ^ 64 then some (a * b) else none

structure Arithmetic.Faithful (ar : Arithmetic) : Prop where
  add : ∀ a b, a + b < 2 ^ 64 → ar.add a b = some (a + b)
  sub : ∀ a b, a < 2 ^ 64 → b ≤ a → ar.sub a b = some (a - b)
  mul : ∀ a b, a * b < 2 ^ 64 → ar.mul a b = some (a * b)

section

variable {ar : Arithmetic} {α : Type} {a b : Nat}

theorem Arithmetic.Faithful.add_bind (har : ar.Faithful) (h : a + b < 2 ^ 64) (f : Nat → Option α) :
    (ar.add a b >>= f) = f (a + b) := by rw [har.add a b h]; rfl

theorem Arithmetic.Faithful.sub_bind (har : ar.Faithful) (ha : a < 2 ^ 64) (hb : b ≤ a) (f : Nat → Option α) :
    (ar.sub a b >>= f) = f (a - b) := by rw [har.sub a b ha hb]; rfl

theorem Arithmetic.Faithful.mul_bind (har : ar.Faithful) (h : a * b < 2 ^ 64) (f : Nat → Option α) :
    (ar.mul a b >>= f) = f (a * b) := by rw [har.mul a b h]; rfl

end

theorem faithful_wrapping : wrapping.Faithful := by
  constructor
  · intro a b h
    simp only [wrapping, Nat.mod_eq_of_lt h]
  · intro a b ha hb
    simp only [wrapping, Option.some.injEq]
    omega
  · intro a b h
    simp only [wrapping, Nat.mod_eq_of_lt h]

theorem faithful_strict : strict.Faithful :=
  ⟨fun _ _ h => if_pos h, fun _ _ _ h => if_pos h, fun _ _ h => if_pos h⟩

end AeraRecovery.Lib.Words
