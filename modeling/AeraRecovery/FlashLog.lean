import AeraRecovery.Lib.Bytes

namespace AeraRecovery.FlashLog

open Lib Bytes List Nat

/-- A log in two files, while no call on them fails. `size` is what the class believes of the current one. -/
structure Tail where
  limit : Nat
  previous : Bytes := []
  current : Bytes := []
  size : Nat := 0
  rotations : UInt32 := 0

namespace Tail

variable (limit : Nat)

def new : Tail := { limit := max 1 (limit / 2) }

def rotate (s : Tail) : Tail :=
  if s.size = s.limit then
    { s with previous := s.current, current := [], size := 0, rotations := s.rotations + 1 }
  else s

/-- The loop of `Add`, with a bound for its turns. -/
def addLoop : Nat → Tail → Bytes → Tail
  | 0, s, _ | _ + 1, s, [] => s
  | turns + 1, s, data =>
    let s := s.rotate
    let bytes := min data.length (s.limit - s.size)
    addLoop turns { s with current := s.current ++ data.take bytes, size := s.size + bytes } (data.drop bytes)

def add (s : Tail) (data : Bytes) : Tail := addLoop data.length s data

def truncated (s : Tail) : Bool := 1 < s.rotations

def segments (stream : Bytes) (turns : Nat) : Tail where
  limit
  previous := (stream.take (turns * limit)).drop ((turns - 1) * limit)
  current := stream.drop (turns * limit)
  size := stream.length - turns * limit
  rotations := .ofNat turns

/-- A full file waits for the next byte before it is rotated. -/
def fed (stream : Bytes) : Tail := segments limit stream ((stream.length - 1) / limit)

variable {limit : Nat} {stream : Bytes}

theorem new_eq : new limit = fed (max 1 (limit / 2)) [] := by
  simp [new, fed, segments]

theorem rotate_fed (hlimit : 0 < limit) :
    (fed limit stream).rotate = segments limit stream (stream.length / limit) := by
  have hle := div_mul_le_self (stream.length - 1) limit
  have hlt := lt_mul_of_div_lt (lt_add_one ((stream.length - 1) / limit)) hlimit
  rw [rotate, fed]
  generalize (stream.length - 1) / limit = turns at hle hlt ⊢
  rw [add_mul, one_mul] at hlt
  split_ifs with hfull
  all_goals dsimp only [segments] at hfull
  · have hlength : stream.length = (turns + 1) * limit := by
      rw [add_mul]
      omega
    rw [hlength, Nat.mul_div_cancel _ hlimit]
    simp [segments, take_of_length_le hlength.le, drop_of_length_le hlength.le, hlength]
  · congr 1
    rw [eq_comm, Nat.div_eq_iff hlimit]
    omega

variable {turns : Nat}

theorem segments_append {n : Nat} {x : Bytes} (h : turns * limit ≤ stream.length) (hn : x.length = n) :
    { segments limit stream turns with
      current := (segments limit stream turns).current ++ x
      size := (segments limit stream turns).size + n } = segments limit (stream ++ x) turns := by
  simp only [segments, take_append_of_le_length h, drop_append_of_le_length h, length_append, mk.injEq, true_and,
    and_true]
  omega

theorem addLoop_fed {data : Bytes} (hlimit : 0 < limit) (h : data.length ≤ turns) :
    addLoop turns (fed limit stream) data = fed limit (stream ++ data) := by
  induction turns generalizing stream data with
  | zero =>
    rw [eq_nil_of_length_eq_zero (le_zero.mp h), append_nil]
    rfl
  | succ turns ih =>
    cases data with
    | nil => rw [append_nil]; rfl
    | cons b data =>
      let n := min (b :: data).length (limit - (stream.length - stream.length / limit * limit))
      have hn : ((b :: data).take n).length = n := length_take_of_le (min_le_left _ _)
      have hle := div_mul_le_self stream.length limit
      have hlt := lt_div_mul_add (a := stream.length) hlimit
      rw [length_cons] at h
      have hpos : 0 < n := lt_min (zero_lt_succ _) (by omega)
      have hroom : n ≤ limit - (stream.length - stream.length / limit * limit) := min_le_right _ _
      have hdiv : (stream.length + n - 1) / limit = stream.length / limit := by
        rw [Nat.div_eq_iff hlimit]
        omega
      have hturn : addLoop (turns + 1) (fed limit stream) (b :: data) =
          addLoop turns (fed limit (stream ++ (b :: data).take n)) ((b :: data).drop n) := by
        rw [addLoop, rotate_fed hlimit, fed, length_append, hn, hdiv, ← segments_append hle hn]
        · rfl
        · nofun
      rw [hturn, ih, append_assoc, take_append_drop]
      rw [length_drop, length_cons]
      omega

theorem foldl_add (hlimit : 0 < limit) (writes : List Bytes) :
    writes.foldl add (fed limit stream) = fed limit (stream ++ writes.flatten) := by
  induction writes generalizing stream with
  | nil => rw [flatten_nil, append_nil]; rfl
  | cons x writes ih => rw [foldl_cons, add, addLoop_fed hlimit le_rfl, ih, flatten_cons, append_assoc]

section

variable {turns : Nat} (hle : turns * limit ≤ stream.length)

include hle

theorem kept_eq : (segments limit stream turns).previous ++ (segments limit stream turns).current =
    stream.drop ((turns - 1) * limit) := by
  have hturns := Nat.mul_le_mul_right limit (sub_le turns 1)
  rw [segments, ← drop_append_of_le_length, take_append_drop]
  rw [length_take]
  omega

theorem loses_iff (hlimit : 0 < limit) :
    (segments limit stream turns).previous ++ (segments limit stream turns).current ≠ stream ↔ 1 < turns := by
  rw [kept_eq hle]
  constructor
  · contrapose!
    intro h
    rw [Nat.sub_eq_zero_of_le h, zero_mul, drop_zero]
  · intro h heq
    have hlength := congrArg length heq
    rw [length_drop, Nat.sub_mul, one_mul] at hlength
    have := Nat.mul_le_mul_right limit h
    omega

end

theorem truncated_iff : (segments limit stream turns).truncated = true ↔ 1 < turns % 2 ^ 32 := by
  rw [truncated, decide_eq_true_iff, UInt32.lt_iff_toNat_lt]
  rfl

/-- However a stream is split, the segments are the end of it, also between a rotation and the byte it is made for.
Whether a part is lost is said right as long as the counter of rotations does not wrap to 0 or 1. -/
theorem add_keeps_tail (limit : Nat) (writes : List Bytes) :
    let stream := writes.flatten
    let t := writes.foldl add (new limit)
    let half := max 1 (limit / 2)
    t = segments half stream ((stream.length - 1) / half) ∧ t.rotate = segments half stream (stream.length / half) ∧
    ∀ turns ∈ [(stream.length - 1) / half, stream.length / half],
      let s := segments half stream turns
      (s.previous ++ s.current) <:+ stream ∧ (s.previous ++ s.current).length ≤ 2 * half ∧
      min stream.length half ≤ (s.previous ++ s.current).length ∧
      ((s.truncated = true ↔ s.previous ++ s.current ≠ stream) ↔ turns ≤ 1 ∨ 1 < turns % 2 ^ 32) := by
  intro stream t half
  have hhalf : 0 < half := lt_of_lt_of_le one_pos (le_max_left _ _)
  have hfed : t = fed half stream := by rw [← nil_append stream, ← foldl_add hhalf, ← new_eq]
  refine ⟨hfed, hfed ▸ rotate_fed hhalf, fun turns hturns => ?_⟩
  have hcount : turns * half ≤ stream.length ∧ stream.length ≤ turns * half + half := by
    have hle := div_mul_le_self (stream.length - 1) half
    have hlt := lt_div_mul_add (a := stream.length - 1) hhalf
    rcases mem_pair.mp hturns with rfl | rfl
    · omega
    · exact ⟨div_mul_le_self _ _, (lt_div_mul_add hhalf).le⟩
  have hsub : (turns - 1) * half = turns * half - half := by rw [Nat.sub_mul, one_mul]
  dsimp only
  rw [truncated_iff, loses_iff hcount.1 hhalf, kept_eq hcount.1, length_drop]
  refine ⟨drop_suffix _ _, by omega, by omega, ?_⟩
  have := mod_le turns (2 ^ 32)
  omega

/-- At the limit of the kernel log, 2 ^ 52 bytes are 2 ^ 32 rotations: nothing seems to be lost after the next byte. -/
theorem kernel_rotations_wrap : let t := (new (2 * 1024 * 1024)).add (replicate (2 ^ 52 + 1) 0)
    t.truncated = false ∧ t.previous ++ t.current ≠ replicate (2 ^ 52 + 1) 0 := by
  have hhalf : max 1 (2 * 1024 * 1024 / 2) = 2 ^ 20 := by decide
  have hturns : (2 ^ 52 + 1 - 1) / 2 ^ 20 = 2 ^ 32 := by decide
  have hfed : (new (2 * 1024 * 1024)).add (replicate (2 ^ 52 + 1) 0) =
      segments (2 ^ 20) (replicate (2 ^ 52 + 1) 0) (2 ^ 32) := by
    rw [new_eq, add, addLoop_fed (lt_max_of_lt_left one_pos) le_rfl, fed, nil_append, length_replicate, hhalf, hturns]
  dsimp only
  rw [hfed, loses_iff (by rw [length_replicate]; decide) (by decide), ← Bool.not_eq_true, truncated_iff]
  exact ⟨by decide, by decide⟩

end Tail

end AeraRecovery.FlashLog
