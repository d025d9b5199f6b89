import AeraRecovery.Lib.Bytes

namespace AeraRecovery.Lib

open List

/-- The running checksum of zlib. The length of a piece is an unsigned of 32 bits, so nothing is said of longer ones. -/
class Crc32 where
  update : UInt32 → Bytes → UInt32
  update_nil : ∀ c, update c [] = c
  update_append : ∀ c a b, (a ++ b).length < 2 ^ 32 → update c (a ++ b) = update (update c a) b

namespace Crc32

section

variable [Crc32] (c : UInt32)

/-- A call with a `size_t`, which is cut to 32 bits. -/
def crc32 (data : Bytes) : UInt32 := update c (data.take (data.length % 2 ^ 32))

/-- The checksum of data of any length, one byte after the other. -/
def checksum (data : Bytes) : UInt32 := data.foldl (fun c b => update c [b]) c

theorem checksum_nil : checksum c [] = c := rfl

theorem checksum_append (a b : Bytes) : checksum c (a ++ b) = checksum (checksum c a) b := foldl_append

theorem update_eq_checksum {data : Bytes} (h : data.length < 2 ^ 32) : update c data = checksum c data := by
  induction data generalizing c with
  | nil => exact update_nil c
  | cons b data ih =>
    have happend := update_append c [b] data h
    rw [singleton_append] at happend
    rw [happend, ih _ (lt_of_le_of_lt (Nat.le_succ _) h)]
    rfl

theorem crc32_eq_checksum {data : Bytes} (h : data.length < 2 ^ 32) : crc32 c data = checksum c data := by
  rw [crc32, Nat.mod_eq_of_lt h, take_length, update_eq_checksum c h]

end

section

variable (c : UInt32)

def bit : UInt32 := if c &&& 1 = 1 then (c >>> 1) ^^^ 0xedb88320 else c >>> 1

def byte (b : UInt8) : UInt32 := bit (bit (bit (bit (bit (bit (bit (bit (c ^^^ b.toUInt32))))))))

/-- The polynomial that ZIP files use. -/
@[reducible]
def standard : Crc32 where
  update c data := ~~~ (data.foldl byte (~~~ c))
  update_nil c := by rw [foldl_nil, UInt32.not_not]
  update_append c a b _ := by rw [foldl_append, UInt32.not_not]

example : standard.update 0 (Bytes.ascii "123456789") = 0xcbf43926 := by decide +kernel

end

end Crc32

end AeraRecovery.Lib
