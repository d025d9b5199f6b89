import AeraRecovery.Abl.Image

namespace AeraRecovery.Abl.Inspect

open Lib Bytes Image

inductive AblStatus
  | unknown
  | efispLoader
  | noEfispLoader
  deriving DecidableEq

/-- A range the scan takes, in the source's own offsets and sizes: a program segment of the image, a
region entered at a depth, a PE image or a compressed section of a region of so many bytes, and what
the decoder leaves in a buffer of so many bytes. -/
inductive Event
  | segment (offset size : Nat)
  | region (depth bytes : Nat)
  | image (bytes offset size : Nat)
  | compressed (bytes offset size : Nat)
  | output (limit size : Nat)
  deriving DecidableEq

/-- `Scan`; the log, newest first, is not in the source and nothing reads it. -/
structure Scan where
  best : Nat := 0
  attempts : Nat := 0
  total : Nat := 0
  status : AblStatus := .unknown
  exhausted : Bool := false
  log : List Event := []
  deriving DecidableEq

def Scan.result (s : Scan) : AblStatus := if s.exhausted then .unknown else s.status

inductive LzmaStatus
  | notSpecified
  | finishedWithMark
  | notFinished
  | needsMoreInput
  | maybeFinishedWithoutMark
  deriving DecidableEq

structure LzmaResult where
  ok : Bool
  status : LzmaStatus
  output : Bytes

/-- The LZMA SDK, which is not part of the repository: `LzmaProps_Decode` as
the dictionary size it finds, and `LzmaDecode` on an output limit, the
compressed bytes and the five property bytes. -/
structure Lzma where
  dicSize : Bytes → Option Nat
  decode : Nat → Bytes → Bytes → LzmaResult

def needle : Bytes := [0x65, 0, 0x66, 0, 0x69, 0, 0x73, 0, 0x70, 0, 0, 0]

def guid : Bytes :=
  [0x98, 0x58, 0x4e, 0xee, 0x14, 0x39, 0x59, 0x42, 0x9d, 0x6e, 0xdc, 0x7b, 0xd7, 0x94, 0x03, 0xcf]

def scanImage (data : Bytes) (s : Scan) (i : Nat) : Scan :=
  if byte data i ≠ 0x4d ∨ byte data (i + 1) ≠ 0x5a then s
  else
    let size := peSize (data.drop i)
    if size ≤ s.best then s
    else { s with
      best := size
      status := if needle <:+: slice data i size then .efispLoader else .noEfispLoader
      log := .image data.length i size :: s.log }

/-- The two header layouts tried in turn: the size of the output buffer and what the decoder leaves in
it, `none` when neither decodes. -/
def decodeSection (lzma : Lzma) (compressed : Bytes) : List Nat → Option (Nat × Bytes)
  | [] => none
  | header :: rest =>
    if compressed.length ≤ header then decodeSection lzma compressed rest
    else
      let declared := if header = 13 then le64 compressed 5 else 2 ^ 64 - 1
      if declared ≠ 2 ^ 64 - 1 ∧ (declared < 64 ∨ maxDecoded < declared) then
        decodeSection lzma compressed rest
      else
        let limit := if declared = 2 ^ 64 - 1 then maxDecoded else declared
        let result := lzma.decode limit (compressed.drop header) (compressed.take 5)
        let complete := result.status = .finishedWithMark ∨
          (declared ≠ 2 ^ 64 - 1 ∧ result.output.length = declared ∧ result.status = .maybeFinishedWithoutMark)
        if ¬ result.ok ∨ ¬ complete ∨ result.output.length < 64 then decodeSection lzma compressed rest
        else some (limit, result.output)

/-- The GUID-defined section loop of `Visit`, from the positions left. -/
def visitSections (lzma : Lzma) (nested : Scan → Bytes → Scan) (data : Bytes) : List Nat → Scan → Scan
  | [], s => s
  | pos :: rest, s =>
    if slice data pos 16 ≠ guid then visitSections lzma nested data rest s
    else
      let start := pos - 4
      let size := byte data start + byte data (start + 1) * 2 ^ 8 + byte data (start + 2) * 2 ^ 16
      let offset := le16 data (pos + 16)
      if byte data (start + 3) ≠ 2 ∨ size < 24 ∨ data.length - start < size ∨ offset < 24 ∨ size ≤ offset then
        visitSections lzma nested data rest { s with exhausted := true }
      else if 8 < s.attempts + 1 then { s with attempts := s.attempts + 1, exhausted := true }
      else
        let s := { s with
          attempts := s.attempts + 1
          log := .compressed data.length (start + offset) (size - offset) :: s.log }
        let compressed := slice data (start + offset) (size - offset)
        if size - offset < 6 then visitSections lzma nested data rest { s with exhausted := true }
        else match lzma.dicSize (compressed.take 5) with
          | none => visitSections lzma nested data rest { s with exhausted := true }
          | some dicSize =>
            if maxDecoded < dicSize then visitSections lzma nested data rest { s with exhausted := true }
            else match decodeSection lzma compressed [13, 5] with
              | none => visitSections lzma nested data rest { s with exhausted := true }
              | some (limit, output) =>
                let s := { s with log := .output limit output.length :: s.log }
                visitSections lzma nested data rest (nested s output)

/-- `Visit`, with fuel for its recursion. Without `AERA_ENABLE_EFISP` there is no decoder and the
section loop is compiled out. -/
def visit (lzma : Option Lzma) : (fuel depth : Nat) → Scan → Bytes → Scan
  | 0, _, s, _ => { s with exhausted := true }
  | fuel + 1, depth, s, data =>
    if 4 < depth ∨ 64 * 1024 * 1024 - s.total < data.length then { s with exhausted := true }
    else
      let s := { s with total := s.total + data.length, log := .region depth data.length :: s.log }
      let s := (List.range (data.length - 63)).foldl (scanImage data) s
      match lzma with
      | none => s
      | some decoder =>
        visitSections decoder (visit lzma fuel (depth + 1)) data (List.range' 4 (data.length - 23)) s

/-- The source has no fuel: from depth 0 the depth check comes before the fuel can run out. -/
def fuel : Nat := 6

/-- The program header loop of `InspectAbl`; `none` is its `return Unknown`. -/
def visitPrograms (lzma : Option Lzma) (image : Bytes) (e : Elf) : List Nat → Scan → Option Scan
  | [], s => some s
  | i :: rest, s =>
    match program image (e.header i) e.wide image.length with
    | none => none
    | some part =>
      if le32 image (e.header i) = 1 ∧ part.size ≠ 0 then
        let s := { s with log := .segment part.offset part.size :: s.log }
        visitPrograms lzma image e rest (visit lzma fuel 0 s (slice image part.offset part.size))
      else visitPrograms lzma image e rest s

def inspectAbl (lzma : Option Lzma) (image : Bytes) : AblStatus :=
  if image.length < 64 ∨ maxInput < image.length then .unknown
  else match elfExtent image image.length with
    | some e =>
      if image.length < e.table.offset + e.table.size then .unknown
      else match visitPrograms lzma image e (List.range e.count) {} with
        | none => .unknown
        | some s => s.result
    | none =>
      if byte image 0 = 0x4d ∧ byte image 1 = 0x5a then (visit lzma fuel 0 {} image).result else .unknown

end AeraRecovery.Abl.Inspect
