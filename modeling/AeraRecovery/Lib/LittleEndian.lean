import AeraRecovery.Lib.Bytes

namespace AeraRecovery.Lib.LittleEndian

def value : Bytes → Nat
  | [] => 0
  | b :: l => b.toNat + 256 * value l

def bytes : Nat → Nat → Bytes
  | 0, _ => []
  | n + 1, v => v.toUInt8 :: bytes n (v / 256)

theorem length_bytes (n v : Nat) : (bytes n v).length = n := by
  induction n generalizing v with
  | zero => rfl
  | succ n ih => rw [bytes, List.length_cons, ih]

theorem value_lt (l : Bytes) : value l < 256 ^ l.length := by
  induction l with
  | nil => exact Nat.one_pos
  | cons b l ih =>
    have hb := b.toNat_lt
    rw [value, List.length_cons, Nat.pow_succ]
    omega

theorem value_bytes {n v : Nat} (h : v < 256 ^ n) : value (bytes n v) = v := by
  induction n generalizing v with
  | zero =>
    rw [bytes, value]
    omega
  | succ n ih =>
    have hlow : v.toUInt8.toNat = v % 256 := by rw [Nat.toUInt8, UInt8.toNat_ofNat']
    rw [bytes, value, ih (by omega), hlow]
    omega

theorem bytes_injective {n v w : Nat} (hv : v < 256 ^ n) (hw : w < 256 ^ n) (h : bytes n v = bytes n w) : v = w := by
  rw [← value_bytes hv, h, value_bytes hw]

end AeraRecovery.Lib.LittleEndian
