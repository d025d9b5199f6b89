import AeraRecovery.Lib.Bytes
import AeraRecovery.Lib.CrashCalls

namespace AeraRecovery.Registration

open Lib Bytes Crash CrashCalls Function

structure Attributes where
  mode : Nat
  uid : Nat
  gid : Nat
  context : Bytes
  deriving DecidableEq

inductive Node
  | file (bytes : Bytes) (attributes : Attributes)
  | folder
  | special
  deriving DecidableEq

/-- What is at each path. Parent directories exist. -/
abbrev Disk := Bytes → Option Node

inductive Call
  | read (path : Bytes)
  | create (path : Bytes)
  | write (path : Bytes)
  | attributes (path : Bytes)
  | sync (path : Bytes)
  | rename (source target : Bytes)
  | unlink (path : Bytes)
  deriving DecidableEq

/-- Which calls fail, and how much a `write` with so many bytes left takes. An interrupted `write` is made again and not
counted. -/
structure Io where
  fails : Call → Nat → Bool
  count : Bytes → Nat → Nat

abbrev Action := Prog (Counted Disk)

namespace Disk

variable (d : Disk)

def create (path : Bytes) (attributes : Attributes) : Option Disk :=
  match d path with
  | none => some (update d path (some (.file [] attributes)))
  | some _ => none

def alter (path : Bytes) (change : Bytes → Attributes → Bytes × Attributes) : Option Disk :=
  match d path with
  | some (.file bytes attributes) =>
    some (update d path (some (.file (change bytes attributes).1 (change bytes attributes).2)))
  | some .folder | some .special | none => none

def rename (source target : Bytes) : Option Disk :=
  match d source with
  | none | some .folder => none
  | some node =>
    if d target = some .folder then none
    else some (update (update d source none) target (some node))

def unlink (path : Bytes) : Option Disk :=
  match d path with
  | none | some .folder => none
  | some (.file _ _) | some .special => some (update d path none)

end Disk

inductive WriteError
  | notStaged
  | notSaved
  deriving DecidableEq

structure DatabaseFile where
  path : Bytes
  original : Bytes
  replacement : Bytes
  attributes : Attributes

namespace Io

variable (io : Io)

/-- `Read`, of a regular file of at most 32 MiB. -/
def read (path : Bytes) : Action (Option Bytes) := do
  if ← attempt io.fails (.read path) some then
    view fun d => match d path with
      | some (.file bytes _) => if bytes.length ≤ 32 * 2 ^ 20 then some bytes else none
      | some .folder | some .special | none => none
  else return none

/-- The loop of `Write`, which takes at least one byte each time. -/
def writeAll (path : Bytes) : Nat → Bytes → Action Bool
  | _, [] => return true
  | 0, _ :: _ => return false
  | fuel + 1, b :: rest =>
    let count := max 1 (io.count path (rest.length + 1))
    andThen (attempt io.fails (.write path) fun d =>
        d.alter path fun bytes a => (bytes ++ (b :: rest).take count, a))
      (writeAll path fuel ((b :: rest).drop count))

def setAttributes (path : Bytes) (change : Attributes → Attributes) : Action Bool :=
  attempt io.fails (.attributes path) fun d => d.alter path fun bytes a => (bytes, change a)

/-- The calls on the open file. The owner and the context of a new file are set before anyone looks at it. -/
def fill (path bytes : Bytes) (attributes : Attributes) : Action Bool :=
  andThen (io.writeAll path bytes.length bytes)
    (andThen (io.setAttributes path fun a => { a with uid := attributes.uid, gid := attributes.gid })
      (andThen (io.setAttributes path fun a => { a with mode := attributes.mode })
        (andThen (if attributes.context = [] then return true
            else io.setAttributes path fun a => { a with context := attributes.context })
          (attempt io.fails (.sync path) some))))

def unlink (path : Bytes) : Action Bool := attempt io.fails (.unlink path) (·.unlink path)

def write (path bytes : Bytes) (attributes : Attributes) : Action (Option WriteError) := do
  if ← attempt io.fails (.create path) (·.create path { attributes with uid := 0, gid := 0, context := [] }) then
    if ← io.fill path bytes attributes then return none
    else
      let _ ← io.unlink path
      return some .notSaved
  else return some .notStaged

def replace (source target : Bytes) : Action Bool :=
  andThen (attempt io.fails (.rename source target) (·.rename source target)) (attempt io.fails (.sync target) some)

end Io

structure Target where
  file : DatabaseFile
  path : Bytes

def Target.temporary (t : Target) : Bytes := t.path ++ ascii ".aera-new"

def Target.rollback (t : Target) : Bytes := t.path ++ ascii ".aera-rollback"

def DatabaseFile.reserve (file : DatabaseFile) : Bytes := file.path ++ ascii ".reservecopy"

def targets (files : List DatabaseFile) : List Target :=
  files.flatMap fun file => [⟨file, file.reserve⟩, ⟨file, file.path⟩]

/-- How `Commit` ends: it returns true, or it fails because a database changed, because a file could not be written, with
the original database restored, or without. -/
inductive Outcome
  | committed
  | changed
  | notStaged (error : WriteError)
  | restored
  | rollbackFailed
  deriving DecidableEq

namespace Io

variable (io : Io)

def unchanged : List DatabaseFile → Action Bool
  | [] => return true
  | file :: rest => do
      if (← io.read file.path) = some file.original then unchanged rest else return false

def unlinkAll : List Target → Action Unit
  | [] => return ()
  | t :: rest => do
      let _ ← io.unlink t.temporary
      unlinkAll rest

def stage (staged : List Target) : List Target → Action (Option WriteError)
  | [] => return none
  | t :: rest => do
      match ← io.write t.temporary t.file.replacement t.file.attributes with
      | none => stage (staged ++ [t]) rest
      | some error =>
        io.unlinkAll staged
        return some error

def restore (t : Target) : Action Bool := do
  match ← io.write t.rollback t.file.original t.file.attributes with
  | none => io.replace t.rollback t.path
  | some _ => return false

/-- Put the original at the targets that may have been replaced. A failure does not stop the loop. -/
def rollBack : List Target → Action Bool
  | [] => return true
  | t :: rest => do
      let okay ← io.restore t
      let others ← rollBack rest
      return okay && others

def commitAll (staged committed : List Target) : List Target → Action Outcome
  | [] => return .committed
  | t :: rest => do
      if ← io.replace t.temporary t.path then commitAll staged (committed ++ [t]) rest
      else
        let okay ← io.rollBack (committed ++ [t])
        io.unlinkAll staged
        return if okay then .restored else .rollbackFailed

def commit (files : List DatabaseFile) : Action Outcome := do
  if ← io.unchanged files then
    match ← io.stage [] (targets files) with
    | none => io.commitAll (targets files) [] (targets files)
    | some error => return .notStaged error
  else return .changed

end Io

end AeraRecovery.Registration
