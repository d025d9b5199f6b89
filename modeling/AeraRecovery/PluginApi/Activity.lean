import AeraRecovery.Lib.Checks
import AeraRecovery.PluginApi.Protocol

namespace AeraRecovery.PluginApi

open Lib Bytes Checks

def kActivityActive : UInt32 := 1

def kActivityCancellable : UInt32 := 2

def kActivityComplete : UInt32 := 4

def kActivityFailed : UInt32 := 8

def kProgressUnknown : UInt32 := 0xffffffff

structure Activity where
  plugin : Bytes
  name : Bytes
  title : Bytes
  detail : Bytes
  storage : Bytes
  id : UInt32
  progress : UInt32
  flags : UInt32
  updatedMs : Nat
  cancelling : Bool
  resultFile : Bytes
  deriving DecidableEq

def Activity.active (activity : Activity) : Bool := activity.flags &&& kActivityActive ≠ 0

/-- The test of `UsesStorage` on the path. -/
def temporaryStorage (storage : Bytes) : Bool := storage = ascii "/tmp" || (ascii "/tmp/").isPrefixOf storage

def usesStorage (activity : Activity) : Bool :=
  activity.active && activity.storage ≠ [] && !temporaryStorage activity.storage

abbrev Activities := List Activity

namespace Activities

variable (activities : Activities)

def find (plugin : Bytes) : Option Activity := List.find? (fun a => a.plugin = plugin) activities

def put (next : Activity) : Activities :=
  if (find activities next.plugin).isSome then activities.map fun a => if a.plugin = next.plugin then next else a
  else activities ++ [next]

def erase (plugin : Bytes) : Activities := activities.filter fun a => a.plugin ≠ plugin

end Activities

def activityState (flags : UInt32) : UInt32 := flags &&& (kActivityActive ||| kActivityComplete ||| kActivityFailed)

/-- The checks of `SetActivity` that need no lock. -/
def activityValid (storage : Bytes) (message : Message) : Bool :=
  let mask := kActivityActive ||| kActivityCancellable ||| kActivityComplete ||| kActivityFailed
  let state := activityState message.flags
  message.requestId ≠ 0 && byte message.title 0 ≠ 0 && message.flags &&& ~~~mask = 0 && state ≠ 0 &&
    state &&& (state - 1) = 0 && (message.flags &&& kActivityCancellable = 0 || state = kActivityActive) &&
    (message.value ≤ 10000 || message.value = kProgressUnknown) &&
    (storage = [] || (byte storage 0 = 47 && 10 ∉ storage))

def nextActivity (found : Option Activity) (plugin name storage : Bytes) (message : Message) (now : Nat) : Activity where
  plugin := plugin
  name := name
  title := cString message.title
  detail := cString message.text
  storage := storage
  id := message.requestId
  progress := message.value
  flags := message.flags
  updatedMs := now
  cancelling := found.any fun a => a.active && activityState message.flags = kActivityActive && a.cancelling
  resultFile := match found with
    | some a => if a.id = message.requestId then a.resultFile else []
    | none => []

variable (activities : Activities)

def setActivity (lease : Bool) (plugin name storage : Bytes) (message : Message) (now : Nat) :
    Except String Activities := do
  ensure (activityValid storage message) "Invalid plugin activity"
  let found := activities.find plugin
  ensure (found.all fun a => !a.active || (a.id = message.requestId && a.storage = storage))
    "Finish the current plugin activity first"
  let next := nextActivity found plugin name storage message now
  ensure (!(usesStorage next && lease)) "A recovery operation is using storage"
  ensure (found.isSome || activities.length < 8) "Too many plugin activities"
  return activities.put next

def expire (now : Nat) : Activities :=
  activities.filter fun a => a.active || a.resultFile ≠ [] || (now + 2 ^ 64 - a.updatedMs) % 2 ^ 64 ≤ 8000

def lower (b : UInt8) : UInt8 := if 65 ≤ b ∧ b ≤ 90 then b + 32 else b

/-- `IsReviewablePackage`, where `regular` says that `lstat` found a regular file that is not empty. -/
def isReviewablePackage (path : Bytes) (regular : Bool) : Bool :=
  byte path 0 = 47 && 10 ∉ path && 5 ≤ path.length &&
    ((path.drop (path.length - 4)).map lower = ascii ".zip" && regular)

/-- `SetActivityFile`, with the answers of `realpath` for the storage of the activity and the path. -/
def setActivityFile (plugin : Bytes) (id : UInt32) (path : Bytes) (regular : Bool)
    (root file : Option Bytes) : Except String Activities := do
  ensure (isReviewablePackage path regular) "The downloaded ZIP is unavailable"
  let found ← require (activities.find plugin) "No matching active plugin task"
  ensure (found.id = id && found.active) "No matching active plugin task"
  ensure (found.storage ≠ [] && root.any fun root => file.any fun file => (root ++ [47]).isPrefixOf file)
    "The downloaded ZIP is outside the task storage"
  return activities.put { found with resultFile := path }

structure Lease where
  object : Nat
  thread : Nat
  acquired : Bool
  deriving DecidableEq

/-- The variables under the mutex, the depths of the threads, and the lease objects that exist. A depth has 32 bits in
the source, and no thread holds as many leases. -/
structure StorageState where
  activities : Activities := []
  lease : Bool := false
  depth : Nat → Nat := fun _ => 0
  leases : List Lease := []

namespace StorageState

/-- The constructor. Between the test of its own depth and the locked section a thread does nothing others can see. -/
def construct (s : StorageState) (object thread : Nat) : StorageState :=
  if s.depth thread ≠ 0 then
    { s with
      depth := Function.update s.depth thread (s.depth thread + 1)
      leases := ⟨object, thread, true⟩ :: s.leases }
  else if s.lease || s.activities.any usesStorage then { s with leases := ⟨object, thread, false⟩ :: s.leases }
  else
    { s with
      lease := true
      depth := Function.update s.depth thread 1
      leases := ⟨object, thread, true⟩ :: s.leases }

def destroy (s : StorageState) (lease : Lease) : StorageState :=
  let s := { s with leases := s.leases.erase lease }
  if lease.acquired then
    let depth := s.depth lease.thread - 1
    let s := { s with depth := Function.update s.depth lease.thread depth }
    if depth ≠ 0 then s else { s with lease := false }
  else s

end StorageState

inductive StorageCall
  | setActivity (plugin name storage : Bytes) (message : Message) (now : Nat)
  | setActivityFile (plugin : Bytes) (id : UInt32) (path : Bytes) (regular : Bool) (root file : Option Bytes)
  | activities (now : Nat)
  | removeActivity (plugin : Bytes)
  | markActivityCancelling (plugin : Bytes)
  | construct (object thread : Nat)
  | destroy (lease : Lease)

def storageStep (s : StorageState) : StorageCall → Option StorageState
  | .setActivity plugin name storage message now =>
    some { s with
      activities := ((setActivity s.activities s.lease plugin name storage message now).toOption).getD s.activities }
  | .setActivityFile plugin id path regular root file =>
    some { s with
      activities := ((setActivityFile s.activities plugin id path regular root file).toOption).getD s.activities }
  | .activities now => some { s with activities := expire s.activities now }
  | .removeActivity plugin => some { s with activities := s.activities.erase plugin }
  | .markActivityCancelling plugin =>
    some { s with activities := s.activities.map fun a => if a.plugin = plugin then { a with cancelling := true } else a }
  | .construct object thread =>
    if s.leases.all fun l => l.object ≠ object then some (s.construct object thread) else none
  | .destroy lease => if lease ∈ s.leases then some (s.destroy lease) else none

end AeraRecovery.PluginApi
