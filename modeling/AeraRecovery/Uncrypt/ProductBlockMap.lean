import AeraRecovery.Lib.Checks
import AeraRecovery.Lib.Ranges
import AeraRecovery.Lib.Text

namespace AeraRecovery.Uncrypt

open Lib Checks Text

inductive Code
  | fileRemove | fileOpen | socketWrite | fileStat | write | blockOpen | ioctl | read | fileSync | fileClose | fileRename

/-- The calls of `ProductBlockMap` that it checks. Those in a loop carry the block, offset or range they are for. -/
inductive Call
  | removeMap | openMap | status | stat | writeSizes | openFile | openDevice | pinFile
  | fibmap (block : Nat) | retrySync (block left : Nat) | retryFibmap (block left : Nat)
  | write (block : Nat) | read (pos : Nat)
  | writeCount | writeRange (range : Nat × Nat) | syncMap | closeMap | syncDevice | closeDevice
  | rename | openDir | syncDir | closeDir

/-- A file on a device, and how the calls turn out. The file system maps block `i` of the file to block `fibmap i` of
the device. -/
structure Job where
  blkDev : Bytes
  file : Bytes
  blksize : Nat
  fibmap : Nat → Nat
  encrypted : Bool
  f2fs : Bool
  succeeds : Call → Bool

def addBlockToRanges (ranges : List (Nat × Nat)) (newBlock : Nat) : List (Nat × Nat) :=
  match ranges.getLast? with
  | some (first, last) =>
    if newBlock = last then ranges.dropLast ++ [(first, last + 1)] else ranges ++ [(newBlock, newBlock + 1)]
  | none => ranges ++ [(newBlock, newBlock + 1)]

def writeAtOffset (device : Nat → UInt8) (offset : Nat) (buffer : Bytes) : Nat → UInt8 :=
  fun x => if offset ≤ x ∧ x < offset + buffer.length then buffer.getD (x - offset) 0 else device x

structure Scan where
  pos : Nat := 0
  head : Nat := 0
  tail : Nat := 0
  headBlock : Nat := 0
  ranges : List (Nat × Nat) := []
  buffers : List Bytes
  device : Nat → UInt8

namespace Job

variable (j : Job)

/-- `RetryFibmap` asks again for what the last call has left in `block`. -/
def retryFibmap (headBlock : Nat) : Nat → Nat → Except Code Nat
  | 0, _ => .error .ioctl
  | left + 1, block => do
      ensure (j.succeeds (.retrySync headBlock left)) .fileSync
      ensure (j.succeeds (.retryFibmap headBlock left)) .ioctl
      if j.fibmap block ≠ 0 then pure (j.fibmap block) else retryFibmap headBlock left (j.fibmap block)

def findBlock (headBlock : Nat) : Except Code Nat := do
  ensure (j.succeeds (.fibmap headBlock)) .ioctl
  if j.fibmap headBlock = 0 then j.retryFibmap headBlock 3 0 else pure (j.fibmap headBlock)

def flushHead (s : Scan) : Except Code Scan := do
  let block ← j.findBlock s.headBlock
  let s := { s with ranges := addBlockToRanges s.ranges block }
  if j.encrypted then
    ensure (j.succeeds (.write s.headBlock)) .write
    let device := writeAtOffset s.device (j.blksize * block) (s.buffers.getD s.head [])
    pure { s with device, head := (s.head + 1) % 5, headBlock := s.headBlock + 1 }
  else pure { s with head := (s.head + 1) % 5, headBlock := s.headBlock + 1 }

def makeRoom (s : Scan) : Except Code Scan := if (s.tail + 1) % 5 = s.head then j.flushHead s else pure s

def readTail (s : Scan) : Except Code Scan := do
  if j.encrypted then
    let toRead := min j.blksize (j.file.length - s.pos)
    ensure (j.succeeds (.read s.pos)) .read
    let buffer := (s.buffers.getD s.tail []).overwrite (j.file.slice s.pos toRead)
    pure { s with buffers := s.buffers.set s.tail buffer, pos := s.pos + toRead, tail := (s.tail + 1) % 5 }
  else pure { s with pos := s.pos + j.blksize, tail := (s.tail + 1) % 5 }

def scanFile : Nat → Scan → Except Code Scan
  | 0, s => pure s
  | fuel + 1, s =>
    if s.pos < j.file.length then do
      let s ← j.makeRoom s
      let s ← j.readTail s
      scanFile fuel s
    else pure s

def drain : Nat → Scan → Except Code Scan
  | 0, s => pure s
  | fuel + 1, s =>
    if s.head ≠ s.tail then do
      let s ← j.flushHead s
      drain fuel s
    else pure s

def sizesLine : Bytes := decimal j.file.length ++ 32 :: decimal j.blksize

def rangeLine (r : Nat × Nat) : Bytes := decimal r.1 ++ 32 :: decimal r.2

def mapText (ranges : List (Nat × Nat)) : Bytes :=
  j.blkDev ++ [10] ++ j.sizesLine ++ [10] ++ decimal ranges.length ++ [10] ++
    ranges.flatMap fun r => rangeLine r ++ [10]

/-- The map file and the device after a run that returns 0. The temporary map file is opened without `O_TRUNC`, and
`leftover` is what it holds before. -/
def productBlockMap (leftover : Bytes) (device : Nat → UInt8) : Except Code (Bytes × (Nat → UInt8)) := do
  ensure (j.succeeds .removeMap) .fileRemove
  ensure (j.succeeds .openMap) .fileOpen
  ensure (j.succeeds .status) .socketWrite
  ensure (j.succeeds .stat) .fileStat
  ensure (j.succeeds .writeSizes) .write
  ensure (j.succeeds .openFile) .fileOpen
  ensure (j.encrypted = false ∨ j.succeeds .openDevice) .blockOpen
  ensure (j.f2fs = false ∨ j.succeeds .pinFile) .ioctl
  let s ← j.scanFile j.file.length
    { buffers := if j.encrypted then List.replicate 5 (List.replicate j.blksize 0) else [], device }
  let s ← j.drain 5 s
  ensure (j.succeeds .writeCount) .write
  s.ranges.forM fun r => ensure (j.succeeds (.writeRange r)) .write
  ensure (j.succeeds .syncMap) .fileSync
  ensure (j.succeeds .closeMap) .fileClose
  ensure (j.encrypted = false ∨ j.succeeds .syncDevice) .fileSync
  ensure (j.encrypted = false ∨ j.succeeds .closeDevice) .fileClose
  ensure (j.succeeds .rename) .fileRename
  ensure (j.succeeds .openDir) .fileOpen
  ensure (j.succeeds .syncDir) .fileSync
  ensure (j.succeeds .closeDir) .fileClose
  pure (leftover.overwrite (j.mapText s.ranges), s.device)

end Job

end AeraRecovery.Uncrypt
