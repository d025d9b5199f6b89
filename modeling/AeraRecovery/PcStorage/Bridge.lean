import AeraRecovery.Lib.Json

namespace AeraRecovery.PcStorage

open Lib Bytes Function

def kBlock : Nat := 8 * 1024 * 1024

/-- A request to the computer. `others` are the members that the bridge does not read. -/
structure Request where
  op : Bytes := []
  path : Option Bytes := none
  size : Nat := 0
  id : Nat := 0
  others : List (Bytes × Json) := []

def componentSafe (component : Bytes) : Bool :=
  component ≠ [] && component ≠ ascii "." && component ≠ ascii ".."

/-- `SafePath`. After a final slash there is nothing left to check. -/
def safePath (path : Bytes) : Bool :=
  let components := (path.drop 1).splitOn 47
  byte path 0 = 47 && path.length ≤ 2048 && 0 ∉ path && 92 ∉ path && components.dropLast.all componentSafe &&
    components.getLast?.all fun component => component = [] || componentSafe component

/-- The variables of a `Bridge` under its lock, without the statistics and the text of the last error. The sequence number
has 64 bits in the source, and the runs are those with fewer requests than that. -/
structure Bridge where
  active : Bool := false
  writable : Bool := false
  waiting : Bool := false
  answered : Bool := false
  owner : Bytes := []
  sequence : Nat := 0
  request : Request := {}
  data : Bytes := []
  reply : Json := .null
  replyData : Bytes := []

def errno (reply : Json) : Int := (reply.get (ascii "errno")).asInt

def nameValid (name : Bytes) : Bool :=
  name ≠ [] && name.length ≤ 255 && name ≠ ascii "." && name ≠ ascii ".." && 47 ∉ name && 0 ∉ name

def entryValid (entry : Json) : Bool :=
  match entry.get (ascii "name") with
  | .string name => (entry.get (ascii "directory")).isBool && nameValid name
  | .null | .bool _ | .integer _ | .real | .array _ | .object _ => false

def statValid (reply : Json) : Bool :=
  (reply.get (ascii "directory")).isBool && (reply.get (ascii "size")).inRange 0 (2 ^ 63) &&
    (reply.get (ascii "mtime")).isInt64

def listValid (reply : Json) : Bool :=
  match reply.get (ascii "entries") with
  | .array entries => entries.length ≤ 4096 && entries.all entryValid
  | .null | .bool _ | .integer _ | .real | .string _ | .object _ => false

def fits (request : Request) (data : Bytes) : Bool :=
  if request.op = ascii "read" then data.length ≤ request.size else data = []

def replyValid (request : Request) (reply : Json) (data : Bytes) : Bool :=
  (request.op ≠ ascii "stat" || statValid reply) && fits request data &&
    (request.op ≠ ascii "list" || listValid reply)

def errnoValid (reply : Json) : Bool :=
  reply.isObject && (reply.find (ascii "errno")).all fun value => value.isInt && 0 ≤ value.asInt && value.asInt ≤ 4095

namespace Bridge

variable (b : Bridge) (owner : Bytes)

def begin (writable : Bool) : Option Bridge :=
  if b.active || b.waiting || owner = [] then none
  else some { b with active := true, writable := writable, owner := owner, waiting := false, answered := false }

def stop : Bridge := { b with active := false }

/-- `Poll` after its wait: null, an empty object or the request. -/
def poll : Option (Option Request) :=
  if !b.active || owner ≠ b.owner then none
  else if !b.waiting || b.answered then some none
  else some (some b.request)

variable (id : Nat)

/-- The test with which `Data`, `AppendData` and `Reply` begin. -/
def pending : Bool :=
  b.active && b.waiting && !b.answered && owner = b.owner && id = b.sequence

def dataFor : Option Bytes := if b.pending owner id then some b.data else none

def appendData (frame : Bytes) : Option Bytes :=
  if b.pending owner id then some (frame ++ b.data) else none

def accept (reply : Json) (data : Bytes) : Option Bridge :=
  if b.pending owner id && data.length ≤ kBlock && errnoValid reply &&
      (errno reply ≠ 0 || replyValid b.request reply data) then
    some { b with reply := reply, replyData := data, answered := true }
  else none

def turn : Bool := !b.active || !b.waiting

def issue (request : Request) (writeData : Bytes) : Bridge :=
  { b with
    sequence := b.sequence + 1
    request := { request with id := b.sequence + 1 }
    data := writeData
    waiting := true
    answered := false }

def result : Option (Int × Json × Bytes) :=
  if b.active && b.answered then some (-max 0 (min (errno b.reply) 4095), b.reply, b.replyData) else none

/-- The end of `Call`. Without an answer the session is over. -/
def finish : Bridge :=
  { b with active := b.active && b.answered, waiting := false, data := [], replyData := [] }

end Bridge

/-- What a `Call` has returned: `-EINVAL`, `-EIO` of the bridge itself, or what the computer answered to the request
`id`. -/
inductive Returned
  | invalid
  | failed
  | peer (id : Nat) (result : Int) (reply : Json) (data : Bytes)

/-- A `Call` and where it is. `made` is the session that was active when it was made. -/
inductive Caller
  | idle
  | queued (made : Nat) (request : Request) (writeData : Bytes)
  | waiting (id : Nat)
  | returned (r : Returned)

/-- A request as it was issued: by which call, in which session that call was made, and in which one it was issued. -/
structure Issue where
  caller : Nat
  made : Nat
  session : Nat
  request : Request
  data : Bytes

/-- An accepted reply. `closed` is the last request that was issued before the last stop or timeout. -/
structure Answer where
  id : Nat
  owner : Bytes
  closed : Nat
  reply : Json
  data : Bytes

/-- What `Poll`, `Data` or `AppendData` has shown to `owner`. -/
inductive Shown
  | request (owner : Bytes) (request : Request)
  | data (owner : Bytes) (id : Nat) (frame shown : Bytes)

structure System where
  bridge : Bridge := {}
  callers : Nat → Caller := fun _ => .idle
  session : Nat := 0
  owners : Nat → Bytes := fun _ => []
  issued : Nat → Option Issue := fun _ => none
  answers : List Answer := []
  shown : List Shown := []
  closed : Nat := 0

namespace System

variable (s : System)

def set (k : Nat) (caller : Caller) : System := { s with callers := update s.callers k caller }

def proceed (k made : Nat) (request : Request) (writeData : Bytes) : System :=
  if s.bridge.active then
    let b := s.bridge.issue request writeData
    { s with
      bridge := b
      callers := update s.callers k (.waiting b.sequence)
      issued := update s.issued b.sequence (some ⟨k, made, s.session, b.request, writeData⟩) }
  else s.set k (.returned .failed)

def enter (k made : Nat) (request : Request) (writeData : Bytes) : System :=
  if s.bridge.turn then s.proceed k made request writeData else s.set k (.queued made request writeData)

def finish (k id : Nat) : System :=
  match s.bridge.result with
  | some (result, reply, data) =>
    { s with
      bridge := s.bridge.finish
      callers := update s.callers k (.returned (.peer id result reply data)) }
  | none =>
    { s with
      bridge := s.bridge.finish
      callers := update s.callers k (.returned .failed)
      closed := s.bridge.sequence }

end System

/-- The sections under the lock. The clock is left open, so that a wait may end at any time. -/
inductive Label
  | begin (owner : Bytes) (writable : Bool)
  | stop
  | heartbeat (owner : Bytes)
  | poll (owner : Bytes)
  | data (owner : Bytes) (id : Nat)
  | appendData (owner : Bytes) (id : Nat) (frame : Bytes)
  | reply (owner : Bytes) (id : Nat) (reply : Json) (data : Bytes)
  | call (k : Nat) (request : Request) (writeData : Bytes)
  | wake (k : Nat)
  | finish (k : Nat)

def callValid (request : Request) (writeData : Bytes) : Bool :=
  safePath (request.path.getD (ascii "/")) && writeData.length ≤ kBlock

/-- A refused call of the owner's side changes nothing, and a heartbeat only moves a deadline. -/
def step (s : System) : Label → Option System
  | .begin owner writable =>
    some <| match s.bridge.begin owner writable with
      | some b =>
        { s with
          bridge := b
          session := s.session + 1
          owners := update s.owners (s.session + 1) owner }
      | none => s
  | .stop => some { s with bridge := s.bridge.stop, closed := s.bridge.sequence }
  | .heartbeat _ => some s
  | .poll owner =>
    some <| match s.bridge.poll owner with
      | some (some request) => { s with shown := .request owner request :: s.shown }
      | some none | none => s
  | .data owner id =>
    some <| match s.bridge.dataFor owner id with
      | some data => { s with shown := .data owner id [] data :: s.shown }
      | none => s
  | .appendData owner id frame =>
    some <| match s.bridge.appendData owner id frame with
      | some data => { s with shown := .data owner id frame data :: s.shown }
      | none => s
  | .reply owner id reply data =>
    some <| match s.bridge.accept owner id reply data with
      | some b => { s with bridge := b, answers := ⟨id, owner, s.closed, reply, data⟩ :: s.answers }
      | none => s
  | .call k request writeData =>
    match s.callers k with
    | .idle =>
      some (if callValid request writeData then s.enter k s.session request writeData
        else s.set k (.returned .invalid))
    | .queued .. | .waiting _ | .returned _ => none
  | .wake k =>
    match s.callers k with
    | .queued made request writeData => some (s.enter k made request writeData)
    | .idle | .waiting _ | .returned _ => none
  | .finish k =>
    match s.callers k with
    | .waiting id => some (s.finish k id)
    | .idle | .queued .. | .returned _ => none

end AeraRecovery.PcStorage
