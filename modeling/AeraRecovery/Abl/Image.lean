import AeraRecovery.Lib.Bytes

namespace AeraRecovery.Abl.Image

open Lib Bytes

def maxInput : Nat := 32 * 1024 * 1024

def maxDecoded : Nat := 16 * 1024 * 1024

structure Range where
  offset : Nat
  size : Nat
  deriving DecidableEq

def Range.stop (r : Range) : Nat := r.offset + r.size

/-- What `ElfExtent` returns through its pointers. -/
structure Elf where
  table : Range
  stride : Nat
  count : Nat
  wide : Bool
  deriving DecidableEq

def Elf.header (e : Elf) (i : Nat) : Nat := e.table.offset + e.stride * i

/-- The header fields `ElfExtent` reads: table offset, stride, count, class. -/
structure ElfFields where
  offset : Nat
  stride : Nat
  count : Nat
  wide : Bool

def elfFields (header : Bytes) : Option ElfFields :=
  if header.length < 64 ∨ slice header 0 4 ≠ [0x7f, 0x45, 0x4c, 0x46] ∨ byte header 5 ≠ 1 then none
  else if byte header 4 = 2 then some ⟨le64 header 32, le16 header 54, le16 header 56, true⟩
  else if byte header 4 = 1 then some ⟨le32 header 28, le16 header 42, le16 header 44, false⟩
  else none

def elfExtent (header : Bytes) (capacity : Nat) : Option Elf :=
  match elfFields header with
  | none => none
  | some ⟨offset, stride, count, wide⟩ =>
    let minimum := if wide then 56 else 32
    if stride < minimum ∨ 256 < stride ∨ count = 0 ∨ 128 < count ∨ capacity < offset ∨
        capacity - offset < count * stride ∨ maxInput < offset + count * stride then none
    else some ⟨⟨offset, count * stride⟩, stride, count, wide⟩

/-- `Program`, for the program header that starts at `p` in the image. -/
def program (image : Bytes) (p : Nat) (wide : Bool) (capacity : Nat) : Option Range :=
  let offset := if wide then le64 image (p + 8) else le32 image (p + 4)
  let bytes := if wide then le64 image (p + 32) else le32 image (p + 16)
  if capacity < offset ∨ capacity - offset < bytes then none else some ⟨offset, bytes⟩

def peSections (data : Bytes) (table : Nat) : Nat → Nat → Nat → Nat
  | 0, _, extent => extent
  | remaining + 1, i, extent =>
    let raw := le32 data (table + i * 40 + 20)
    let size := le32 data (table + i * 40 + 16)
    if data.length < raw ∨ data.length - raw < size then 0
    else peSections data table remaining (i + 1) (max extent (raw + size))

def peSize (data : Bytes) : Nat :=
  let bytes := data.length
  if bytes < 64 ∨ byte data 0 ≠ 0x4d ∨ byte data 1 ≠ 0x5a then 0
  else
    let pe := le32 data 60
    if pe < 64 ∨ bytes - 24 < pe ∨ slice data pe 4 ≠ [0x50, 0x45, 0, 0] ∨ le16 data (pe + 4) ≠ 0xaa64 then 0
    else
      let optional := le16 data (pe + 20)
      let count := le16 data (pe + 6)
      if optional < 112 ∨ bytes - pe - 24 < optional ∨ count = 0 ∨ 96 < count ∨
          le16 data (pe + 24) ≠ 0x20b ∨ le16 data (pe + 92) ≠ 10 then 0
      else
        let table := pe + 24 + optional
        let extent := le32 data (pe + 84)
        if bytes - table < count * 40 ∨ extent < table + count * 40 ∨ bytes < extent then 0
        else peSections data table count 0 extent

variable {image : Bytes} {capacity n p : Nat} {e : Elf}

theorem elfFields_take (hn : 64 ≤ n) : elfFields (image.take n) = elfFields image := by
  have hlen : (image.take n).length < 64 ↔ image.length < 64 := by
    simp only [List.length_take]
    omega
  simp (disch := omega) only [elfFields, hlen, slice_take, byte_take, le16_take, le32_take, le64_take]

theorem elfExtent_iff : elfExtent image capacity = some e ↔
    elfFields image = some ⟨e.table.offset, e.stride, e.count, e.wide⟩ ∧ e.table.size = e.count * e.stride ∧
      (if e.wide then 56 else 32) ≤ e.stride ∧ e.stride ≤ 256 ∧ e.count ≠ 0 ∧ e.count ≤ 128 ∧
      e.table.stop ≤ capacity ∧ e.table.stop ≤ maxInput := by
  obtain ⟨⟨offset, size⟩, stride, count, wide⟩ := e
  unfold elfExtent
  cases hf : elfFields image with
  | none => simp
  | some f =>
    obtain ⟨offset', stride', count', wide'⟩ := f
    simp only [Option.ite_none_left_eq_some, Option.some.injEq, Elf.mk.injEq, Range.mk.injEq, Range.stop,
      ElfFields.mk.injEq]
    constructor
    · rintro ⟨hc, ⟨rfl, rfl⟩, rfl, rfl, rfl⟩
      refine ⟨⟨rfl, rfl, rfl, rfl⟩, rfl, ?_⟩
      omega
    · rintro ⟨⟨rfl, rfl, rfl, rfl⟩, rfl, hc⟩
      refine ⟨?_, ⟨rfl, rfl⟩, rfl, rfl, rfl⟩
      omega

theorem header_stop {i : Nat} (h : elfExtent image capacity = some e) (hi : i < e.count) :
    e.header i + (if e.wide then 56 else 32) ≤ e.table.stop := by
  obtain ⟨-, hsize, hmin, -⟩ := elfExtent_iff.mp h
  have hmul : e.stride * i + e.stride ≤ e.count * e.stride := by
    calc e.stride * i + e.stride = (i + 1) * e.stride := by ring
      _ ≤ e.count * e.stride := Nat.mul_le_mul_right _ hi
  simp only [Elf.header, Range.stop, hsize]
  omega

theorem elfExtent_take {capacity' : Nat} (h : elfExtent image capacity = some e) (hn : 64 ≤ n)
    (htable : e.table.stop ≤ capacity') : elfExtent (image.take n) capacity' = some e := by
  rw [elfExtent_iff] at h ⊢
  obtain ⟨hf, hsize, hmin, hmax, hpos, hcount, -, hinput⟩ := h
  exact ⟨(elfFields_take hn).trans hf, hsize, hmin, hmax, hpos, hcount, htable, hinput⟩

theorem elfExtent_header : elfExtent (image.take 64) capacity = elfExtent image capacity := by
  unfold elfExtent
  rw [elfFields_take le_rfl]

theorem program_iff {wide : Bool} {r : Range} : program image p wide capacity = some r ↔
    r.offset = (if wide then le64 image (p + 8) else le32 image (p + 4)) ∧
      r.size = (if wide then le64 image (p + 32) else le32 image (p + 16)) ∧ r.stop ≤ capacity := by
  obtain ⟨offset, size⟩ := r
  simp only [program, Option.ite_none_left_eq_some, Option.some.injEq, Range.mk.injEq, Range.stop]
  constructor
  · rintro ⟨hc, rfl, rfl⟩
    exact ⟨rfl, rfl, by omega⟩
  · rintro ⟨rfl, rfl, hc⟩
    exact ⟨by omega, rfl, rfl⟩

theorem program_take {wide : Bool} (hp : p + (if wide then 56 else 32) ≤ n) :
    program (image.take n) p wide capacity = program image p wide capacity := by
  cases wide with
  | true =>
    have hp : p + 56 ≤ n := hp
    simp (disch := omega) only [program, if_true, le64_take]
  | false =>
    have hp : p + 32 ≤ n := hp
    simp (disch := omega) only [program, Bool.false_eq_true, if_false, le32_take]

end AeraRecovery.Abl.Image
