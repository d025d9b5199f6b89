import Mathlib

namespace AeraRecovery.Lib

open List Option

abbrev Bytes := List UInt8

-- These have names so that a definition that decides about bytes is the same term in whatever module it stands.
instance lawfulBEqBytes : LawfulBEq Bytes := inferInstance

instance isPreorderByte : Std.IsPreorder UInt8 := inferInstance

instance trichotomousBytes : Std.Trichotomous fun x y : Bytes => x < y := inferInstance

namespace Bytes

variable {α : Type}

def ascii (s : String) : Bytes := s.toList.map fun c => c.toNat.toUInt8

variable (d : Bytes)

/-- The byte at `i`, as an unbounded number. Out of range reads give 0. -/
def byte (i : Nat) : Nat := (d.getD i 0).toNat

def le16 (i : Nat) : Nat := byte d i + byte d (i + 1) * 2 ^ 8

def le32 (i : Nat) : Nat := le16 d i + le16 d (i + 2) * 2 ^ 16

def le64 (i : Nat) : Nat := le32 d i + le32 d (i + 4) * 2 ^ 32

/-- The number that `d` codes, the highest byte first. -/
def be : Nat := d.foldl (fun value b => value * 2 ^ 8 + b.toNat) 0

def slice (i n : Nat) : Bytes := (d.drop i).take n

/-- Write over the beginning of `d`. What reaches beyond its end is appended. -/
def overwrite (d bytes : Bytes) : Bytes := bytes ++ d.drop bytes.length

theorem append_ne_append {p q x y : Bytes} {b c : UInt8} (hx : x.getLast? = some b) (hy : y.getLast? = some c)
    (hbc : b ≠ c) : p ++ x ≠ q ++ y := by
  intro h
  have hlast := congrArg getLast? h
  rw [getLast?_append, getLast?_append, hx, hy] at hlast
  exact hbc (some.inj hlast)

variable {d : Bytes}

variable {n i : Nat}

theorem byte_take (h : i < n) : byte (d.take n) i = byte d i := by
  simp only [byte, getD_eq_getElem?_getD, getElem?_take_of_lt h]

theorem le16_take (h : i + 2 ≤ n) : le16 (d.take n) i = le16 d i := by
  simp only [le16, byte_take (show i < n by omega), byte_take (show i + 1 < n by omega)]

theorem le32_take (h : i + 4 ≤ n) : le32 (d.take n) i = le32 d i := by
  simp only [le32, le16_take (show i + 2 ≤ n by omega), le16_take (show i + 2 + 2 ≤ n by omega)]

theorem le64_take (h : i + 8 ≤ n) : le64 (d.take n) i = le64 d i := by
  simp only [le64, le32_take (show i + 4 ≤ n by omega), le32_take (show i + 4 + 4 ≤ n by omega)]

variable {a : Bytes}

theorem le16_append (b : Bytes) (h : i + 2 ≤ a.length) : le16 (a ++ b) i = le16 a i := by
  rw [← le16_take h, take_left]

theorem le32_append (b : Bytes) (h : i + 4 ≤ a.length) : le32 (a ++ b) i = le32 a i := by
  rw [← le32_take h, take_left]

variable {k : Nat}

theorem slice_take (h : i + k ≤ n) : slice (d.take n) i k = slice d i k := by
  simp only [slice, drop_take, take_take]
  rw [min_eq_left (by omega)]

theorem length_slice (h : i + n ≤ d.length) : (slice d i n).length = n := by
  rw [slice, length_take, length_drop]
  omega

theorem slice_add (i n k : Nat) : slice d i (n + k) = slice d i n ++ slice d (i + n) k := by
  rw [slice, slice, slice, take_add, drop_drop]

theorem slice_slice {j : Nat} (h : j + k ≤ n) : slice (slice d i n) j k = slice d (i + j) k := by
  simp only [slice, drop_take, take_take, drop_drop]
  rw [min_eq_left (by omega)]

theorem byte_slice (h : k < n) : byte (slice d i n) k = byte d (i + k) := by
  rw [slice, byte_take h, byte, byte, getD_eq_getElem?_getD, getD_eq_getElem?_getD, getElem?_drop]

theorem le16_slice (h : k + 2 ≤ n) : le16 (slice d i n) k = le16 d (i + k) := by
  rw [le16, le16, byte_slice (show k < n by omega), byte_slice (show k + 1 < n by omega), add_assoc]

def readExact (n : Nat) (s : Bytes) : Option (Bytes × Bytes) :=
  if n ≤ s.length then some (s.take n, s.drop n) else none

theorem readExact_eq_some_iff {s b : Bytes} : readExact n s = some (a, b) ↔ a.length = n ∧ s = a ++ b := by
  rw [readExact]
  constructor
  · intro h
    split_ifs at h with hn
    obtain ⟨rfl, rfl⟩ := Prod.mk.inj (some.inj h)
    exact ⟨length_take_of_le hn, (take_append_drop n s).symm⟩
  · rintro ⟨rfl, rfl⟩
    rw [if_pos (by simp), take_left, drop_left]

theorem readExact_eq_none {s : Bytes} (h : s.length < n) : readExact n s = none :=
  if_neg (by omega)

/-- A prefix that does not complete the read is carried over to what follows it. -/
theorem readExact_append_of_ge (s : Bytes) (h : a.length ≤ n) :
    readExact n (a ++ s) = (readExact (n - a.length) s).map fun r => (a ++ r.1, r.2) := by
  rw [readExact, readExact, length_append]
  by_cases hn : n - a.length ≤ s.length
  · rw [if_pos hn, if_pos (by omega), map_some, take_append, drop_append,
      take_of_length_le h, drop_of_length_le h, nil_append]
  · rw [if_neg hn, if_neg (by omega), map_none]

/-- What successive reads into a buffer of `n + 1` elements return. -/
def buffers (n : Nat) (xs : List α) : List (List α) := (toChunksAux n xs 0).2

theorem toChunksAux_flatten (n : Nat) (xs : List α) (i : Nat) :
    (toChunksAux n xs i).1 ++ (toChunksAux n xs i).2.flatten = xs := by
  induction xs generalizing i with
  | nil => rfl
  | cons x xs ih =>
    cases i with
    | zero => simp only [toChunksAux, nil_append, flatten_cons, cons_append, ih]
    | succ i => simp only [toChunksAux, cons_append, ih]

theorem buffers_flatten (n : Nat) (xs : List α) : (buffers n xs).flatten = xs := by
  have h := toChunksAux_flatten n xs 0
  have h0 : (toChunksAux n xs 0).1 = [] := by cases xs <;> rfl
  rwa [h0, nil_append] at h

end Bytes

end AeraRecovery.Lib
