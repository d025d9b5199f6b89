import AeraRecovery.Lib.Calls
import AeraRecovery.Plugins.Bundle

namespace AeraRecovery.Plugins

open Lib Bytes Checks Commands Calls FileSystem Text

inductive Location
  | storage
  | memory
  deriving DecidableEq

structure Request where
  id : Bytes
  package : Package
  allowUnofficial : Bool

/-- The writing of a new file: whether it can be opened, and the number of bytes written when a write or the final `fsync`
fails. -/
structure Writing where
  opens : Bool := true
  stops : Option Nat := none

/-- Which calls of an installation fail. The calls of a removal are numbered. -/
structure Faults where
  root : Bool := false
  clearStaging : Nat → Bool := fun _ => false
  mkdir : Bool := false
  manifest : Writing := {}
  signature : Writing := {}
  payload : Writing := {}
  hash : Bool := false
  clearPrevious : Nat → Bool := fun _ => false
  access : Bool := false
  aside : Bool := false
  publish : Bool := false
  undo : Bool := false
  drop : Nat → Bool := fun _ => false

abbrev Store := Machine Bytes Bytes

def stagingName (id : Bytes) (pid : Nat) : Bytes := ascii ".install-" ++ id ++ ascii "-" ++ decimal pid

def previousName (id : Bytes) : Bytes := id ++ ascii ".previous"

def hex (digest : Bytes) : Bytes :=
  digest.flatMap fun b => [b / 16, b % 16].map fun d => if d < 10 then 48 + d else 87 + d

def removeTree (fails : Nat → Bool) (path : List Bytes) : Command Failure Store Bool := do
  let f ← files
  Calls.removeTree fails true (f.depth + 1) path

def callOnce (broken : Bool) (change : Files Bytes Bytes → Option (Files Bytes Bytes)) : Command Failure Store Bool :=
  call (fun _ => broken) change

def produce (opens : Bool) (path : List Bytes) (content : Bytes) (okay : Bool) : Command Failure Store Bool := do
  if ← callOnce (!opens) (·.create path (.file [])) then
    update (·.write path content)
    return okay
  else return false

def writeFile (w : Writing) (path : List Bytes) (content : Bytes) : Command Failure Store Bool :=
  match w.stops with
  | none => produce w.opens path content true
  | some n => produce w.opens path (content.take n) false

def extractPayload (w : Writing) (payload : ZipEntry) (path : List Bytes) : Command Failure Store Bool :=
  match w.stops with
  | none => produce w.opens path payload.data.1 payload.data.2
  | some n => produce w.opens path (payload.data.1.take n) false

def hashMatches (lib : Libraries) (content : Bytes) (size : Nat) (hash : Bytes) : Bool :=
  content.length = size && hex (lib.sha256 content) = hash.map toLower

def hashFile (lib : Libraries) (broken : Bool) (path : List Bytes) (size : Nat) (hash : Bytes) :
    Command Failure Store Bool := do
  let f ← files
  match f.entry path with
  | some (.file content) => return !broken && hashMatches lib content size hash
  | some (.link _) | some .special | some .dir | none => return false

section

variable (lib : Libraries) (faults : Faults)

def writeSignature (signature : Option Bytes) (staging : Bytes) : Command Failure Store Bool :=
  match signature with
  | none => return true
  | some signature => writeFile faults.signature [staging, ascii "plugin.json.sig"] signature

def extractBundle (bundle : Bundle) (staging : Bytes) : Command Failure Store Bool := do
  if ← writeFile faults.manifest [staging, ascii "plugin.json"] bundle.manifest then
    if ← writeSignature faults bundle.signature staging then
      extractPayload faults.payload bundle.payload [staging, bundle.plugin.payloadName]
    else return false
  else return false

def stage (location : Location) (bundle : Bundle) (staging : Bytes) : Command Failure Store Unit := do
  if faults.root then throw (match location with | .memory => .memoryStore | .storage => .storage)
  else
    let _ ← removeTree faults.clearStaging [staging]
    if ← callOnce faults.mkdir (·.create [staging] .dir) then
      if ← extractBundle faults bundle staging then
        if ← hashFile lib faults.hash [staging, bundle.plugin.payloadName] bundle.plugin.payloadSize
            bundle.plugin.payloadSha256 then
          return ()
        else
          let _ ← removeTree faults.drop [staging]
          throw .integrity
      else
        let _ ← removeTree faults.drop [staging]
        throw .extract
    else throw .staging

def setAside (hadPrevious : Bool) (id : Bytes) : Command Failure Store Bool :=
  if hadPrevious then callOnce faults.aside (·.rename [id] [previousName id]) else return true

def takeBack (hadPrevious : Bool) (id : Bytes) : Command Failure Store Bool :=
  if hadPrevious then callOnce faults.undo (·.rename [previousName id] [id]) else return true

def exchange (hadPrevious : Bool) (id staging : Bytes) : Command Failure Store Bool := do
  if ← setAside faults hadPrevious id then callOnce faults.publish (·.rename [staging] [id])
  else return false

def publish (id staging : Bytes) : Command Failure Store Unit := do
  let _ ← removeTree faults.clearPrevious [previousName id]
  let f ← files
  let hadPrevious := !faults.access && (f.entry [id]).isSome
  if ← exchange faults hadPrevious id staging then
    let _ ← removeTree faults.drop [previousName id]
    return ()
  else
    let _ ← takeBack faults hadPrevious id
    let _ ← removeTree faults.drop [staging]
    throw .publish

/-- `InstallLocal` in the store of `location`. The changes of modes and owners are left out. -/
def installLocal (pid : Nat) (location : Location) (request : Request) : Command Failure Store Unit := do
  let bundle ← ofExcept (openLocalBundle lib request.package)
  ofExcept (ensure (bundle.plugin.trust = .official ∨ request.allowUnofficial = true) .unconfirmed)
  ofExcept (ensure (request.id = [] ∨ request.id = bundle.plugin.id) .identity)
  stage lib faults location bundle (stagingName bundle.plugin.id pid)
  publish faults bundle.plugin.id (stagingName bundle.plugin.id pid)

end

end AeraRecovery.Plugins
