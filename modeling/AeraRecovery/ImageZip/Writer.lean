import AeraRecovery.ImageZip.Sparse

namespace AeraRecovery.ImageZip

open Lib Bytes Crc32

variable [Crc32]

structure Partition where
  bytes : Nat
  sparse : Bool

structure ZipEntry where
  uncompressedLength : Nat
  crc32 : UInt32

inductive State
  | raw | header | skipHeader | chunk | skipChunk | data | fill | crc
  deriving DecidableEq

/-- The fields of the class. `file` is what was written to the descriptor, which is also what was hashed. -/
structure ImageWriter where
  state : State := .raw
  written : Nat := 0
  encoded : Nat := 0
  remaining : Nat := 0
  chunkBytes : Nat := 0
  encodedCrc : UInt32 := 0
  outputCrc : UInt32 := 0
  imageCrc : Nat := 0
  block : Nat := 0
  totalChunks : Nat := 0
  chunks : Nat := 0
  chunkHeader : Nat := 0
  chunkType : Nat := 0
  need : Nat := 0
  buffer : Bytes := []
  file : Bytes := []
  deriving DecidableEq

namespace ImageWriter

def start (part : Partition) : ImageWriter := if part.sparse then { state := .header, need := 28 } else {}

variable (part : Partition) (w : ImageWriter)

def output (data : Bytes) : Bool × ImageWriter :=
  if data.length > part.bytes - w.written then (false, w)
  else (true, { w with
    outputCrc := if part.sparse then crc32 w.outputCrc data else w.outputCrc
    file := w.file ++ data
    written := w.written + data.length })

/-- The buffer of `Repeat` holds 65536 bytes. The loop runs once for each of them that is full or begun. -/
def repeatLoop (data : Bytes) : Nat → ImageWriter → Nat → Bool × ImageWriter
  | _, w, 0 => (true, w)
  | 0, w, _ + 1 => (false, w)
  | fuel + 1, w, bytes + 1 =>
    let n := min (bytes + 1) data.length
    let r := output part w (data.take n)
    if r.1 then repeatLoop data fuel r.2 (bytes + 1 - n) else r

def repeatBytes (bytes : Nat) (fill : Bytes) : Bool × ImageWriter :=
  repeatLoop part (cycle fill 65536) bytes w bytes

def nextChunk : ImageWriter :=
  { w with chunks := w.chunks + 1, state := .chunk, need := 12, buffer := [] }

def beginData : Bool × ImageWriter :=
  let w : ImageWriter := { w with buffer := [] }
  if w.chunkType = rawChunk then (true, { w with state := .data, remaining := w.chunkBytes })
  else if w.chunkType = fillChunk then (true, { w with state := .fill, need := 4 })
  else if w.chunkType = dontCareChunk then
    let r := repeatBytes part w w.chunkBytes []
    if r.1 then (true, nextChunk r.2) else r
  else if w.chunkType = crcChunk then (true, { w with state := .crc, need := 4 })
  else (false, w)

def readHeader : Bool × ImageWriter :=
  let p := w.buffer
  if le32 p 0 ≠ 0xed26ff3a ∨ le16 p 4 ≠ 1 ∨ le16 p 8 < 28 ∨ le16 p 8 > 1024 ∨ le16 p 10 < 12 ∨ le16 p 10 > 1024 then
    (false, w)
  else
    let w : ImageWriter := { w with block := le32 p 12, totalChunks := le32 p 20, imageCrc := le32 p 24 }
    if w.block = 0 ∨ w.block % 4 ≠ 0 ∨ w.block > 2 ^ 20 ∨ w.totalChunks = 0 ∨ w.totalChunks > 10000000 ∨
        w.block * le32 p 16 ≠ part.bytes then (false, w)
    else
      let remaining := le16 p 8 - 28
      (true, { w with
        chunkHeader := le16 p 10
        remaining := remaining
        buffer := []
        state := if remaining ≠ 0 then .skipHeader else .chunk
        need := 12 })

def readChunk : Bool × ImageWriter :=
  let p := w.buffer
  if w.chunks ≥ w.totalChunks then (false, w)
  else
    let w : ImageWriter := { w with chunkType := le16 p 0, chunkBytes := le32 p 4 * w.block }
    if w.chunkBytes > part.bytes - w.written then (false, w)
    else if ¬ known w.chunkType then (false, w)
    else if (if w.chunkType = crcChunk then w.chunkBytes ≠ 0 else w.chunkBytes = 0) ∨
        le32 p 8 ≠ w.chunkHeader + payloadSize w.chunkType w.chunkBytes then (false, w)
    else
      let w : ImageWriter := { w with remaining := w.chunkHeader - 12, buffer := [] }
      if w.remaining ≠ 0 then (true, { w with state := .skipChunk }) else beginData part w

def readFill : Bool × ImageWriter :=
  let r := repeatBytes part w w.chunkBytes w.buffer
  if r.1 then (true, nextChunk r.2) else r

def readCrc : Bool × ImageWriter :=
  if le32 w.buffer 0 ≠ w.outputCrc.toNat then (false, w) else (true, nextChunk w)

/-- What follows once the buffer holds as many bytes as the state needs. -/
def complete : Bool × ImageWriter :=
  match w.state with
  | .header => readHeader part w
  | .chunk => readChunk part w
  | .fill => readFill part w
  | .crc => readCrc w
  | _ => (true, w)

def turn (data : Bytes) : (Bool × ImageWriter) × Bytes :=
  match w.state with
  | .raw => (output part w data, [])
  | .data =>
    let n := min data.length w.remaining
    let r := output part w (data.take n)
    if r.1 then
      let w : ImageWriter := { r.2 with remaining := r.2.remaining - n }
      ((true, if w.remaining = 0 then nextChunk w else w), data.drop n)
    else (r, data)
  | .skipHeader =>
    let n := min data.length w.remaining
    let w : ImageWriter := { w with remaining := w.remaining - n }
    ((true, if w.remaining = 0 then { w with state := .chunk, need := 12 } else w), data.drop n)
  | .skipChunk =>
    let n := min data.length w.remaining
    let w : ImageWriter := { w with remaining := w.remaining - n }
    (if w.remaining = 0 then beginData part w else (true, w), data.drop n)
  | _ =>
    let n := min data.length (w.need - w.buffer.length)
    let w : ImageWriter := { w with buffer := w.buffer ++ data.take n }
    (if w.buffer.length ≠ w.need then (true, w) else complete part w, data.drop n)

/-- The loop, `none` if it does not end within the given number of turns. -/
def appendLoop : Nat → ImageWriter → Bytes → Option (Bool × ImageWriter)
  | _, w, [] => some (true, w)
  | 0, _, _ :: _ => none
  | fuel + 1, w, b :: data =>
    let t := turn part w (b :: data)
    if t.1.1 then appendLoop fuel t.1.2 t.2 else some t.1

def append (data : Bytes) : Option (Bool × ImageWriter) :=
  appendLoop part data.length
    { w with encoded := w.encoded + data.length, encodedCrc := crc32 w.encodedCrc data } data

/-- The archive library hands over the entry in segments and stops at the first refusal. -/
def feed : ImageWriter → List Bytes → Option (Bool × ImageWriter)
  | w, [] => some (true, w)
  | w, data :: segments => (append part w data).bind fun r => if r.1 then feed r.2 segments else some r

def finish (sha256 : Bytes → Bytes) (entry : ZipEntry) (w : ImageWriter) : Option Bytes :=
  if w.encoded ≠ entry.uncompressedLength ∨ w.encodedCrc ≠ entry.crc32 ∨ w.written ≠ part.bytes ∨
      (part.sparse ∧ (w.state ≠ .chunk ∨ w.buffer ≠ [] ∨ w.chunks ≠ w.totalChunks ∨
        (w.imageCrc ≠ 0 ∧ w.imageCrc ≠ w.outputCrc.toNat))) then none
  else some (sha256 w.file)

end ImageWriter

end AeraRecovery.ImageZip
