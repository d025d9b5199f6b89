import AeraRecovery.Lib.Cells
import AeraRecovery.Payload.Direct

namespace AeraRecovery.Payload.WriteOperation

open Lib Checks Storage Cells

inductive Failure
  | stopped | mismatch | rawSize | decoder (message : String) | unreachable | cancelled | truncated | write | trailer
  | exceeds
  deriving DecidableEq

/-- A source of decoded bytes: endless zeros, or a decoder that still yields `rest` and then ends, without an error
if it is intact. -/
inductive Reader
  | zeros
  | stream (rest : Bytes) (intact : Bool)

def Reader.readExact (n : Nat) : Reader → Option (Bytes × Reader)
  | .zeros => some (List.replicate n 0, .zeros)
  | .stream rest intact => (Bytes.readExact n rest).map fun r => (r.1, .stream r.2 intact)

/-- One more read after the last extent: it must hit the end of the stream. -/
def Reader.finish : Reader → Except Failure Unit
  | .zeros => .ok ()
  | .stream (_ :: _) _ => .error .exceeds
  | .stream [] intact => ensure intact .trailer

/-- The libraries: a hash, and decoders from the whole input to the output with its end. -/
structure Libraries where
  sha256 : Bytes → Bytes
  bzip2 : Bytes → Bytes × Bool
  xz : Bytes → Except String (Bytes × Bool)
  zstd : Bytes → Except String (Bytes × Bool)

structure Source where
  libraries : Libraries
  block : UInt64
  data : Bytes

variable (block : UInt64)

def decodedSize (op : InstallOperation) : UInt64 := (op.dstExtents.map fun e => e.num * block).sum

def decoder (opened : Except String (Bytes × Bool)) : Except Failure Reader :=
  match opened with
  | .error message => .error (.decoder message)
  | .ok (out, intact) => .ok (.stream out intact)

def openReader (source : Source) (op : InstallOperation) : Except Failure Reader :=
  if op.type.empty then .ok .zeros
  else do
    let input := source.data.slice op.offset.toNat op.length.toNat
    ensure (source.libraries.sha256 input = op.hash) .mismatch
    match op.type with
    | .replace => do
        ensure (input.length.toUInt64 = decodedSize source.block op) .rawSize
        pure (.stream input true)
    | .replaceBz => decoder (.ok (source.libraries.bzip2 input))
    | .replaceXz => decoder (source.libraries.xz input)
    | .replaceZstd => decoder (source.libraries.zstd input)
    | _ => .error .unreachable

structure Cursor where
  reader : Reader
  offset : Nat
  left : Nat
  extents : List Extent

def writeChunk : Nat := 1024 * 1024

def Cursor.advance (c : Cursor) (k : Nat) : Cursor := { c with offset := c.offset + k, left := c.left - k }

def Cursor.enter (c : Cursor) (e : Extent) (es : List Extent) : Cursor :=
  { c with offset := (e.start * block).toNat, left := (e.num * block).toNat, extents := es }

/-- What the loops do next: come to their end, go to the next extent, or read a chunk. -/
inductive Turn
  | done
  | extent (c : Cursor)
  | chunk (c : Cursor) (buffer : Bytes)

def Cursor.turn (cancelled : Bool) (c : Cursor) : Except Failure Turn :=
  if c.left = 0 then
    match c.extents with
    | [] => do
        c.reader.finish
        pure .done
    | e :: es => pure (.extent (c.enter block e es))
  else do
    ensure (cancelled = false) .cancelled
    let (buffer, reader) ← require (c.reader.readExact (min c.left writeChunk)) .truncated
    pure (.chunk { c with reader } buffer)

inductive TaskError
  | cancelled
  | operation (e : Failure)
  | flush
  deriving DecidableEq

/-- Where a task is. Each place stands before one access to memory that others share, or before one system call. -/
inductive Pc
  | queued | skipped
  | guard | claim
  | entry | next (c : Cursor) | recheck (c : Cursor) (buffer : Bytes) | write (c : Cursor) (count : Nat) (rest : Bytes)
  | raise (e : Failure)
  | retire | flush | publish
  | abort (e : TaskError) | fail (e : TaskError)
  | finished (result : Except TaskError Unit)

def Pc.running : Pc → Bool
  | .queued | .skipped | .finished _ => false
  | _ => true

def Pc.over : Pc → Bool
  | .skipped | .finished _ => true
  | _ => false

def Pc.error : Pc → Option TaskError
  | .finished (.error e) => some e
  | _ => none

inductive Phase
  | queued | writing | written | failed
  deriving DecidableEq

def Phase.label : Phase → Bytes
  | .writing => Bytes.ascii "writing"
  | .written => Bytes.ascii "written"
  | _ => Bytes.ascii "failed"

structure Target where
  done : Nat
  phase : Phase
  remaining : Nat

inductive Effect
  | write (offset : Nat) (bytes : Bytes)
  | sync

def writes (log : List Effect) : List Piece :=
  log.filterMap fun
    | .write offset bytes => some (offset, bytes)
    | .sync => none

structure Memory where
  cancelled : Bool
  target : Target
  log : List Effect

/-- How a write or a flush ends. A write that gets through may be short; one that fails may have stored some bytes. -/
inductive Outcome
  | wrote (k : Nat)
  | failed (k : Nat)

def writeStep (m : Memory) (c : Cursor) (count : Nat) (rest : Bytes) : Outcome → Option (Memory × Pc)
  | .wrote k =>
    if 0 < k ∧ k ≤ rest.length then
      some ({ m with log := m.log ++ [.write c.offset (rest.take k)] }, .write (c.advance k) count (rest.drop k))
    else none
  | .failed k =>
    if k ≤ rest.length then some ({ m with log := m.log ++ [.write c.offset (rest.take k)] }, .raise .write) else none

def taskStep (source : Source) (op : InstallOperation) (outcome : Outcome) (m : Memory) : Pc → Option (Memory × Pc)
  | .queued | .skipped | .finished _ => none
  | .guard => some (m, if m.cancelled then .finished (.error .cancelled) else .claim)
  | .claim =>
    -- compare_exchange(0, 1)
    let phase := if m.target.phase = .queued then .writing else m.target.phase
    some ({ m with target := { m.target with phase } }, .entry)
  | .entry =>
    if m.cancelled then some (m, .abort (.operation .stopped))
    else match openReader source op with
      | .error e => some (m, .raise e)
      | .ok reader => some (m, .next ⟨reader, 0, 0, op.dstExtents⟩)
  | .next c =>
    match c.turn source.block m.cancelled with
    | .error e => some (m, .raise e)
    | .ok .done => some (m, .retire)
    | .ok (.extent c') => some (m, .next c')
    | .ok (.chunk c' buffer) => some (m, .recheck c' buffer)
  | .recheck c buffer => some (m, if m.cancelled then .raise .cancelled else .write c buffer.length buffer)
  | .write c count rest =>
    -- the cursor moves with each `pwrite` of `write_all_at`; with no byte left comes `done.fetch_add(count)`
    if rest = [] then some ({ m with target := { m.target with done := m.target.done + count } }, .next c)
    else writeStep m c count rest outcome
  | .raise e => some ({ m with cancelled := true }, .abort (.operation e))
  | .retire =>
    some ({ m with target := { m.target with remaining := m.target.remaining - 1 } },
      if m.target.remaining = 1 then .flush else .finished (.ok ()))
  | .flush =>
    match outcome with
    | .wrote _ => some ({ m with log := m.log ++ [.sync] }, .publish)
    | .failed _ => some (m, .abort .flush)
  | .publish => some ({ m with target := { m.target with phase := .written } }, .finished (.ok ()))
  | .abort e => some ({ m with cancelled := true }, .fail e)
  | .fail e => some ({ m with target := { m.target with phase := .failed } }, .finished (.error e))

/-- What can happen to a target and its file when one of its tasks moves. The flag that cancels the batch is left out:
a task may find it set or not. -/
inductive Move (source : Source) (op : InstallOperation) :
    Target → List Effect → Pc → Target → List Effect → Pc → Prop
  | start (t) (l) : Move source op t l .queued t l .guard
  | skip (t) (l) : Move source op t l .queued t l .skipped
  | cancelled (t) (l) : Move source op t l .guard t l (.finished (.error .cancelled))
  | enter (t) (l) : Move source op t l .guard t l .claim
  | claim (t) (l) :
      Move source op t l .claim { t with phase := if t.phase = .queued then .writing else t.phase } l .entry
  | stopped (t) (l) : Move source op t l .entry t l (.abort (.operation .stopped))
  | rejected (t) (l) (e) : Move source op t l .entry t l (.raise e)
  | opened (t) (l) (reader) (hopen : openReader source op = .ok reader) :
      Move source op t l .entry t l (.next ⟨reader, 0, 0, op.dstExtents⟩)
  | broken (t) (l) (c) (e) : Move source op t l (.next c) t l (.raise e)
  | extent (t) (l) (c : Cursor) (e) (es) (hleft : c.left = 0) (hextents : c.extents = e :: es) :
      Move source op t l (.next c) t l (.next (c.enter source.block e es))
  | chunk (t) (l) (c : Cursor) (k) (buffer) (reader) (hk : k ≤ c.left)
      (hread : c.reader.readExact k = some (buffer, reader)) :
      Move source op t l (.next c) t l (.recheck { c with reader } buffer)
  | done (t) (l) (c : Cursor) (hleft : c.left = 0) (hextents : c.extents = []) (hend : c.reader.finish = .ok ()) :
      Move source op t l (.next c) t l .retire
  | withdrawn (t) (l) (c) (buffer) (e) : Move source op t l (.recheck c buffer) t l (.raise e)
  | confirmed (t) (l) (c) (buffer) : Move source op t l (.recheck c buffer) t l (.write c buffer.length buffer)
  | unwritten (t) (l) (c : Cursor) (count) (rest : Bytes) (k) (hk : k ≤ rest.length) :
      Move source op t l (.write c count rest) t (l ++ [.write c.offset (rest.take k)]) (.raise .write)
  | wrote (t) (l) (c : Cursor) (count) (rest : Bytes) (k) (hk : k ≤ rest.length) :
      Move source op t l (.write c count rest) t (l ++ [.write c.offset (rest.take k)])
        (.write (c.advance k) count (rest.drop k))
  | counted (t) (l) (c) (count) :
      Move source op t l (.write c count []) { t with done := t.done + count } l (.next c)
  | raised (t) (l) (e) : Move source op t l (.raise e) t l (.abort (.operation e))
  | retired (t) (l) (hremaining : t.remaining ≠ 1) :
      Move source op t l .retire { t with remaining := t.remaining - 1 } l (.finished (.ok ()))
  | last (t) (l) (hremaining : t.remaining = 1) :
      Move source op t l .retire { t with remaining := t.remaining - 1 } l .flush
  | unflushed (t) (l) : Move source op t l .flush t l (.abort .flush)
  | flushed (t) (l) : Move source op t l .flush t (l ++ [.sync]) .publish
  | published (t) (l) : Move source op t l .publish { t with phase := .written } l (.finished (.ok ()))
  | aborted (t) (l) (e) : Move source op t l (.abort e) t l (.fail e)
  | gaveUp (t) (l) (e) : Move source op t l (.fail e) { t with phase := .failed } l (.finished (.error e))

variable {source : Source} {op : InstallOperation}

theorem turn_move (source : Source) (op : InstallOperation) (m : Memory) (c : Cursor) :
    (∀ e, c.turn source.block m.cancelled = .error e → Move source op m.target m.log (.next c) m.target m.log (.raise e)) ∧
    (c.turn source.block m.cancelled = .ok .done → Move source op m.target m.log (.next c) m.target m.log .retire) ∧
    (∀ c', c.turn source.block m.cancelled = .ok (.extent c') →
      Move source op m.target m.log (.next c) m.target m.log (.next c')) ∧
    ∀ c' buffer, c.turn source.block m.cancelled = .ok (.chunk c' buffer) →
      Move source op m.target m.log (.next c) m.target m.log (.recheck c' buffer) := by
  refine ⟨fun e _ => .broken _ _ _ e, ?_⟩
  rw [Cursor.turn]
  by_cases hleft : c.left = 0
  · rw [if_pos hleft]
    cases hextents : c.extents with
    | nil =>
      simp only [bind_ok_iff, pure_ok_iff, exists_const, and_true, reduceCtorEq, and_false, false_implies,
        implies_true]
      rintro ⟨⟨⟩, hend⟩
      exact .done _ _ c hleft hextents hend
    | cons e es =>
      simp only [pure_ok_iff, reduceCtorEq, false_implies, implies_true, Turn.extent.injEq, and_true, true_and]
      rintro c' rfl
      exact .extent _ _ c e es hleft hextents
  · rw [if_neg hleft]
    simp only [bind_ok_iff, ensure_ok_iff, require_ok_iff, pure_ok_iff, reduceCtorEq, and_false, exists_false,
      false_implies, implies_true, Turn.chunk.injEq, true_and, exists_const]
    rintro c' _ ⟨-, ⟨buffer, reader⟩, hread, rfl, rfl⟩
    exact .chunk _ _ c _ buffer reader (Nat.min_le_left _ _) hread

theorem taskStep_move {outcome : Outcome} {m m' : Memory} {pc pc' : Pc}
    (h : taskStep source op outcome m pc = some (m', pc')) :
    Move source op m.target m.log pc m'.target m'.log pc' := by
  cases pc with
  | queued | skipped | finished => cases h
  | guard =>
    cases h
    split_ifs
    · exact .cancelled _ _
    · exact .enter _ _
  | claim =>
    cases h
    exact .claim _ _
  | entry =>
    rw [taskStep] at h
    split_ifs at h
    · cases h
      exact .stopped _ _
    · cases hopen : openReader source op with
      | error e =>
        rw [hopen] at h
        cases h
        exact .rejected _ _ e
      | ok reader =>
        rw [hopen] at h
        cases h
        exact .opened _ _ reader hopen
  | next c =>
    obtain ⟨hbroken, hdone, hextent, hchunk⟩ := turn_move source op m c
    rw [taskStep] at h
    cases hturn : c.turn source.block m.cancelled with
    | error e =>
      rw [hturn] at h
      cases h
      exact hbroken e hturn
    | ok turn =>
      rw [hturn] at h
      cases turn with
      | done =>
        cases h
        exact hdone hturn
      | extent c' =>
        cases h
        exact hextent c' hturn
      | chunk c' buffer =>
        cases h
        exact hchunk c' buffer hturn
  | recheck c buffer =>
    cases h
    split_ifs
    · exact .withdrawn _ _ _ _ _
    · exact .confirmed _ _ _ _
  | write c count rest =>
    rw [taskStep] at h
    split_ifs at h with hrest
    · cases h
      subst hrest
      exact .counted _ _ _ _
    · cases outcome with
      | wrote k =>
        obtain ⟨hk, h⟩ := Option.ite_none_right_eq_some.mp h
        cases h
        exact .wrote _ _ _ _ _ k hk.2
      | failed k =>
        obtain ⟨hk, h⟩ := Option.ite_none_right_eq_some.mp h
        cases h
        exact .unwritten _ _ _ _ _ k hk
  | raise e =>
    cases h
    exact .raised _ _ e
  | retire =>
    cases h
    split_ifs with hremaining
    · exact .last _ _ hremaining
    · exact .retired _ _ hremaining
  | flush =>
    cases outcome with
    | wrote k =>
      cases h
      exact .flushed _ _
    | failed k =>
      cases h
      exact .unflushed _ _
  | publish =>
    cases h
    exact .published _ _
  | abort e =>
    cases h
    exact .aborted _ _ e
  | fail e =>
    cases h
    exact .gaveUp _ _ e

end AeraRecovery.Payload.WriteOperation
