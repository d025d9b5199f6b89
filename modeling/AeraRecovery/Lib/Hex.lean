import AeraRecovery.Lib.Text

namespace AeraRecovery.Lib.Hex

def digit (n : Nat) : UInt8 := (if n < 10 then 48 + n else 87 + n).toUInt8

def hex (p : Bytes) : Bytes := p.flatMap fun b => [digit (b.toNat / 16), digit (b.toNat % 16)]

def undigit (c : UInt8) : Option Nat :=
  if 48 ≤ c ∧ c ≤ 57 then some (c.toNat - 48) else if 97 ≤ c ∧ c ≤ 102 then some (c.toNat - 97 + 10) else none

def unhex : Bytes → Option Bytes
  | [] => some []
  | [_] => none
  | a :: b :: rest => do
    let high ← undigit a
    let low ← undigit b
    let rest ← unhex rest
    return (16 * high + low).toUInt8 :: rest

theorem length_hex (p : Bytes) : (hex p).length = 2 * p.length := by
  induction p with
  | nil => rfl
  | cons b p ih =>
    change (digit (b.toNat / 16) :: digit (b.toNat % 16) :: hex p).length = _
    simp only [List.length_cons, ih]
    omega

theorem undigit_digit : ∀ n < 16, undigit (digit n) = some n := by decide

theorem isSpace_digit : ∀ n < 16, Text.isSpace (digit n) = false := by decide

theorem unhex_hex (p : Bytes) : unhex (hex p) = some p := by
  induction p with
  | nil => rfl
  | cons b p ih =>
    have hb := b.toNat_lt
    have hjoin : (16 * (b.toNat / 16) + b.toNat % 16).toUInt8 = b := by
      rw [Nat.div_add_mod]
      exact UInt8.ofNat_toNat
    change unhex (digit (b.toNat / 16) :: digit (b.toNat % 16) :: hex p) = _
    rw [unhex, undigit_digit _ (by omega), undigit_digit _ (by omega), ih]
    exact congrArg (fun c => some (c :: p)) hjoin

theorem isSpace_of_mem_hex {p : Bytes} {c : UInt8} (h : c ∈ hex p) : Text.isSpace c = false := by
  obtain ⟨b, -, hc⟩ := List.mem_flatMap.mp h
  have hb := b.toNat_lt
  simp only [List.mem_cons, List.not_mem_nil, or_false] at hc
  rcases hc with rfl | rfl
  · exact isSpace_digit _ (by omega)
  · exact isSpace_digit _ (by omega)

end AeraRecovery.Lib.Hex
