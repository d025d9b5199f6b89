import AeraRecovery.Lib.Commands
import AeraRecovery.Root.CopyExact

namespace AeraRecovery.Root

open Lib Bytes Checks Commands Command

inductive Slot
  | a
  | b
  deriving DecidableEq

def Slot.text : Slot → Bytes
  | a => ascii "a"
  | b => ascii "b"

/-- The `init_boot` partition of a slot, whether its name under `/dev/block/by-name` is still there, and the folder of
backups, oldest file first. -/
structure Disk where
  device : Bytes
  byName : Bool := true
  backups : List (Bytes × Bytes) := []

inductive Failure
  | unsupported | storageLocked | noModule | noStorage | download | verification | archive | noPartition | backup
  | backupVerification | patch | image | flash | flashVerification | noRollback | restore | restoreVerification
  deriving DecidableEq

def putFile (name content : Bytes) (files : List (Bytes × Bytes)) : List (Bytes × Bytes) :=
  files.filter (fun f => f.1 ≠ name) ++ [(name, content)]

def removeFile (name : Bytes) (files : List (Bytes × Bytes)) : List (Bytes × Bytes) :=
  files.filter fun f => f.1 ≠ name

namespace Copied

def toFile (copied : Copied) (unlinks : Bool) (name : Bytes) (files : List (Bytes × Bytes)) : List (Bytes × Bytes) :=
  match copied with
  | unopened => files
  | created => putFile name [] files
  | stopped written => if unlinks then removeFile name files else putFile name written files
  | complete written => putFile name written files

/-- A copy to the partition writes over its beginning. The clean-up removes the name of the partition. -/
def toBlock (copied : Copied) (unlinks : Bool) (d : Disk) : Disk :=
  match copied with
  | unopened | created => d
  | stopped written => { d with device := d.device.overwrite written, byName := d.byName && !unlinks }
  | complete written => { d with device := d.device.overwrite written }

end Copied

def Disk.fileSize (d : Disk) (measures : Bool) : Nat := if d.byName && measures then d.device.length else 0

section

variable (sha256 : Bytes → Bytes) (slot : Slot)

/-- The readback is tried ten times. -/
def verifyBlockWrite (verifies : Nat → Bool) (d : Disk) (expectedHash : Bytes) : Bool :=
  (List.range 10).any fun attempt => verifies attempt && d.byName && sha256 d.device = expectedHash

def backupName (stamp : Bytes) : Bytes := ascii "init_boot_" ++ slot.text ++ ascii "-" ++ stamp ++ ascii ".img"

/-- One call of `Patch`: the checks it makes before it looks at the partition, the time, and how each later call goes.
`image` is the file `ksud` leaves. -/
structure Attempt where
  checks : Except Failure Unit
  measures : Bool
  stamp : Bytes
  backup : Copy
  hashesBackup : Bool
  unlinksBackup : Bool
  image : Option Bytes
  hashesImage : Bool
  flash : Copy
  verifies : Nat → Bool
  stamp_ne : stamp ≠ []

/-- The second half of `Patch`, from the hash of the backup of `device` on. -/
def flashPatched (a : Attempt) (device : Bytes) : Command Failure Disk Unit :=
  if a.hashesBackup = false then do
    modify fun d => if a.unlinksBackup then { d with backups := removeFile (backupName slot a.stamp) d.backups } else d
    throw .backupVerification
  else do
    let image ← ofExcept (require a.image .patch)
    ofExcept (ensure (image.length = device.length) .patch)
    ofExcept (ensure (a.hashesImage ∧ sha256 image ≠ sha256 device) .image)
    let flashed := a.flash.copyExact image device.length
    modify (flashed.toBlock a.flash.unlinks)
    ofExcept (ensure flashed.ok .flash)
    let d ← get
    ofExcept (ensure (verifyBlockWrite sha256 a.verifies d (sha256 image)) .flashVerification)

def patch (a : Attempt) : Command Failure Disk Unit := do
  ofExcept a.checks
  let d ← get
  let size := d.fileSize a.measures
  ofExcept (ensure (1024 * 1024 ≤ size ∧ size ≤ 64 * 1024 * 1024) .noPartition)
  let copied := a.backup.copyExact d.device size
  modify fun d => { d with backups := copied.toFile a.backup.unlinks (backupName slot a.stamp) d.backups }
  ofExcept (ensure copied.ok .backup)
  flashPatched sha256 slot a d.device

def isBackup (name : Bytes) : Bool :=
  let namePrefix := ascii "init_boot_" ++ slot.text ++ ascii "-"
  name.take namePrefix.length = namePrefix && namePrefix.length + 4 < name.length &&
    name.drop (name.length - 4) = ascii ".img"

def latestBackup (names : List Bytes) : Bytes :=
  names.foldl (fun latest name => if isBackup slot name ∧ latest < name then name else latest) []

/-- One call of `Rollback`. `list` is what is listed of the folder, in any order: a `readdir` that fails is taken for
the end. -/
structure Restore where
  list : List (Bytes × Bytes) → List (Bytes × Bytes)
  opensFolder : Bool
  measures : Bool
  stats : Bool
  copy : Copy
  hashes : Bool
  verifies : Nat → Bool
  part : ∀ files, (list files).Subperm files

def rollback (r : Restore) : Command Failure Disk Unit := do
  let d ← get
  let backup := if r.opensFolder then latestBackup slot ((r.list d.backups).map Prod.fst) else []
  let source := (d.backups.lookup backup).getD []
  let size := d.fileSize r.measures
  ofExcept (ensure (backup ≠ [] ∧ size ≠ 0 ∧ (if r.stats then source.length else 0) = size) .noRollback)
  let restored := r.copy.copyExact source size
  modify (restored.toBlock r.copy.unlinks)
  ofExcept (ensure restored.ok .restore)
  ofExcept (ensure r.hashes .restoreVerification)
  let d ← get
  ofExcept (ensure (verifyBlockWrite sha256 r.verifies d (sha256 source)) .restoreVerification)

end

end AeraRecovery.Root
