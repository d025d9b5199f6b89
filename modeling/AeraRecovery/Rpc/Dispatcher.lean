import AeraRecovery.Lib.Bytes
import AeraRecovery.Lib.Steps

namespace AeraRecovery.Rpc

open Lib Bytes Steps Function

/-- A request. Its operation and arguments are only read by the engine. -/
structure Request where
  id : Bytes := []
  error : Bytes := []
  deriving DecidableEq

def Request.valid (request : Request) : Bool := request.error.isEmpty

inductive Note
  | log (text : Bytes)
  | data (name value : Bytes)
  | error (code message : Bytes)
  deriving DecidableEq

inductive Body
  | note (n : Note)
  | progress (phase : Bytes) (percent : Int)
  | result (code : Int)
  deriving DecidableEq

structure Event where
  id : Bytes
  body : Body
  deriving DecidableEq

/-- The stream that turns what is printed into log events of the session it was opened for. -/
structure LogStream where
  output : Nat
  id : Bytes
  pending : Bytes

def splitLines : Bytes → List Bytes × Bytes
  | [] => ([], [])
  | b :: rest =>
    let (lines, tail) := splitLines rest
    if b = 10 then ([b] :: lines, tail)
    else
      match lines with
      | [] => ([], b :: tail)
      | line :: lines => ((b :: line) :: lines, tail)

inductive Worker
  | absent
  | started
  | checked
  | executing (request : Request)
  | finished
  deriving DecidableEq

/-- Where a call of `Cancel` is, with the output of the session that was active when it was issued. -/
inductive Cancelling
  | idle
  | checked (issued : Option Nat)
  | stored (issued : Option Nat)
  deriving DecidableEq

/-- The variables that the lock protects, what has been written to each output, and the threads of the sessions. An
output is known by the number of the `Start` that was given it. -/
structure Core where
  output : Option Nat := none
  log : Option LogStream := none
  request : Request := {}
  active : Bool := false
  starts : Nat := 0
  accepted : Nat → Option Request := fun _ => none
  written : Nat → List Event := fun _ => []
  worker : Nat → Worker := fun _ => .absent

namespace Core

variable (s : Core)

/-- `Send`, which does nothing without an output. -/
def send (output : Option Nat) (events : List Event) : Core :=
  match output with
  | none => s
  | some n => { s with written := update s.written n (s.written n ++ events) }

/-- `Start` is one locked section after the checks of its arguments. -/
def start (hasOutput : Bool) (request : Request) (opens : Bool) : Bool × Core :=
  let file := s.starts
  let s := { s with starts := s.starts + 1 }
  if !hasOutput || !request.valid then (false, s)
  else if s.active then (false, s)
  else if !opens then (false, { s with output := none, request := {}, log := none })
  else
    (true, { s with
      output := some file
      request := request
      log := some ⟨file, request.id, []⟩
      active := true
      accepted := update s.accepted file (some request)
      worker := update s.worker file .started })

/-- A write to the log stream, which is given to the printing functions and taken back in the locked sections that
start and end a session. -/
def print (text : Bytes) : Core :=
  match s.log with
  | none => s
  | some stream =>
    let (lines, tail) := splitLines (stream.pending ++ text)
    { s.send (some stream.output) (lines.map fun line => ⟨stream.id, .note (.log line)⟩) with
      log := some { stream with pending := tail } }

def closeLog : Core :=
  match s.log with
  | none => s
  | some stream =>
    let tail := if stream.pending = [] then [] else [⟨stream.id, .note (.log stream.pending)⟩]
    { s.send (some stream.output) tail with log := none }

def closeSession (result : Int) : Core :=
  let s := s.closeLog
  { s.send s.output [⟨s.request.id, .result result⟩] with output := none, request := {}, active := false }

end Core

/-- With the flags and calls outside the lock. The last two fields record for each flag that a `Cancel` has set, and for
each message that it has logged, which session was hit and in which session it was issued. -/
structure State extends Core where
  cancelled : Bool := false
  progress : Nat → Bool := fun _ => false
  cancel : Nat → Cancelling := fun _ => .idle
  flagged : List (Option Nat × Option Nat) := []
  logged : List (Option Nat × Option Nat) := []

/-- The locked sections and atomic accesses of the calls, with the number of the session or call they belong to. -/
inductive Label
  | start (hasOutput : Bool) (request : Request) (opens : Bool)
  | check (session : Nat)
  | load (session : Nat)
  | close (session : Nat) (result : Int)
  | emit (n : Note)
  | print (text : Bytes)
  | checkProgress (call : Nat)
  | writeProgress (call : Nat) (phase : Bytes) (percent : Int)
  | checkCancel (call : Nat)
  | storeCancel (call : Nat)
  | logCancel (call : Nat)

def step (s : State) : Label → Option State
  | .start hasOutput request opens =>
    let result := s.toCore.start hasOutput request opens
    some { s with toCore := result.2, cancelled := if result.1 then false else s.cancelled }
  | .check session =>
    if s.worker session = .started then
      some { s with worker := update s.worker session (if s.active then .checked else .finished) }
    else none
  | .load session =>
    if s.worker session = .checked then
      some { s with worker := update s.worker session (.executing s.request) }
    else none
  | .close session result =>
    match s.worker session with
    | .executing _ =>
      some { s with
        toCore := { s.toCore.closeSession result with worker := update s.worker session .finished }
        cancelled := false }
    | .absent | .started | .checked | .finished => none
  | .emit n => some { s with toCore := s.toCore.send s.output [⟨s.request.id, .note n⟩] }
  | .print text => some { s with toCore := s.toCore.print text }
  | .checkProgress call => some { s with progress := update s.progress call s.active }
  | .writeProgress call phase percent =>
    if s.progress call then
      some { s with
        toCore := s.toCore.send s.output [⟨s.request.id, .progress phase (max 0 (min percent 100))⟩]
        progress := update s.progress call false }
    else none
  | .checkCancel call =>
    if s.cancel call = .idle then
      some { s with cancel := update s.cancel call (if s.active then .checked s.output else .idle) }
    else none
  | .storeCancel call =>
    match s.cancel call with
    | .checked issued =>
      some { s with
        cancelled := true
        cancel := update s.cancel call (.stored issued)
        flagged := if s.active then (s.output, issued) :: s.flagged else s.flagged }
    | .idle | .stored _ => none
  | .logCancel call =>
    match s.cancel call with
    | .stored issued =>
      some { s with
        toCore := s.toCore.send s.output [⟨s.request.id, .note (.log (ascii "Cancellation requested\n"))⟩]
        cancel := update s.cancel call .idle
        logged := if s.output.isSome then (s.output, issued) :: s.logged else s.logged }
    | .idle | .checked _ => none

end AeraRecovery.Rpc
