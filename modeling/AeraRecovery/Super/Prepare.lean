import AeraRecovery.Lib.Commands
import AeraRecovery.Super.RomLayout

namespace AeraRecovery.Super

open Lib.Checks Lib.Commands Command FlashLayout RomLayout

/-- Super's partition table and the device-mapper entries. A mapping remembers the table it was made from. -/
@[ext]
structure World where
  table : MetadataBuilder
  mapped : String → Option MetadataBuilder

namespace World

variable (w : World)

def Has (name : String) : Prop := name ∈ w.table.partitions.map Partition.name

instance (name : String) : Decidable (w.Has name) := inferInstanceAs (Decidable (_ ∈ _))

def destroyLogicalPartition (name : String) : Option World :=
  if (w.mapped name).isSome then some { w with mapped := Function.update w.mapped name none } else none

def createLogicalPartition (name : String) : Option World :=
  if (w.mapped name).isNone ∧ w.Has name then some { w with mapped := Function.update w.mapped name (some w.table) }
  else none

end World

structure TWPartition where
  mountPoint : String
  isSuper : Bool

def removeBeginningSlash (path : String) : String := String.ofList ((path.toList.dropWhile (· ≠ '/')).drop 1)

def getBarePartitionName (mountPoint : String) : String :=
  if mountPoint = "/system_root" then "system" else removeBeginningSlash mountPoint

def TWPartition.bare (part : TWPartition) : String := getBarePartitionName part.mountPoint

def logicalName (table : MetadataBuilder) (suffix bare : String) : Option String :=
  if table.findPartition (bare ++ suffix) ≠ none then some (bare ++ suffix)
  else if table.findPartition bare ≠ none then some bare
  else none

structure Batch where
  targets : List (String × Nat)
  suffix : String
  findPartitionByPath : String → Option TWPartition
  layout : Option RomImageLayout

/-- Which of the calls that depend on the device get through. A commit that fails may have written the table. -/
structure Environment where
  resolves : String → Bool
  quiesces : Bool
  checkpoints : Bool
  reads : Bool
  readsBatch : Bool
  accepts : TWPartition → Nat → Bool
  idle : Bool
  exports : Bool
  destroys : String → Bool
  idleAgain : Bool
  commits : Bool
  written : Bool
  maps : String → Bool
  hasBlock : String → Bool
  claims : Bool

inductive Reason
  | unresolved (target : String)
  | dependencies
  | checkpoint
  | noTargets
  | packageTarget
  | metadata
  | missingPartition (bare : String)
  | invalidTarget (target : String)
  | batchMetadata
  | missingTarget (bare : String)
  | snapshotsActive
  | romLayout (message : String)
  | layout (message : String)
  | limits
  | layoutTarget (name : String)
  | logicalTarget (name : String)
  | staleCow (name : String)
  | snapshotsChanged
  | commit
  | mapTarget (name : String)
  | mapImage
  | blockDevice (target : String)
  | claim
  deriving DecidableEq

def Reason.message : Reason → String
  | .unresolved _ | .dependencies | .noTargets => ""
  | .checkpoint => "Cannot checkpoint Super metadata before preparation"
  | .packageTarget => "Invalid package logical target"
  | .metadata => "Cannot read Super metadata"
  | .missingPartition bare => "Missing logical partition; applying ROM layout is required: " ++ bare
  | .invalidTarget target => "Invalid image flash target: " ++ target
  | .batchMetadata => "Cannot read Super metadata for the image batch"
  | .missingTarget bare => "Missing logical target: " ++ bare
  | .snapshotsActive => "OTA snapshots are active or their state cannot be verified; no images written"
  | .romLayout message | .layout message => message
  | .limits => "The complete image layout exceeds Super metadata/group limits"
  | .layoutTarget name => "Cannot release ROM layout target: " ++ name
  | .logicalTarget name => "Cannot release logical target: " ++ name
  | .staleCow name => "Stale COW is still in use: " ++ name
  | .snapshotsChanged => "Snapshot state changed before preparation"
  | .commit => "Cannot commit the prepared Super layout"
  | .mapTarget name => "Cannot map prepared target: " ++ name
  | .mapImage => "Cannot map ROM image target"
  | .blockDevice target => "Prepared target has no block device: " ++ target
  | .claim => "Invalid or aliased image target"

def isBlockPath (target : String) : Prop := "/dev/block/".toList <+: target.toList

def isLogicalPath (target : String) : Prop := "/logical/".toList <+: target.toList

instance (target : String) : Decidable (isBlockPath target) := inferInstanceAs (Decidable (_ <+: _))

instance (target : String) : Decidable (isLogicalPath target) := inferInstanceAs (Decidable (_ <+: _))

def nameCharacter (c : Char) : Bool := c.isAlphanum || c = '_' || c = '-'

inductive Selected
  | device (target : String)
  | logical (target : String) (image : LogicalImageSize)
  | physical (target : String) (part : TWPartition)
  | super (target : String) (part : TWPartition) (image : LogicalImageSize)

def Selected.image : Selected → Option LogicalImageSize
  | .device _ | .physical _ _ => none
  | .logical _ image | .super _ _ image => some image

section

variable (env : Environment) (batch : Batch) (table : MetadataBuilder)

def validateImageFlashTarget (part : TWPartition) (bytes : Nat) : Bool :=
  bytes ≠ 0 && bytes ≤ 0x7fffffffffffffff &&
    if part.isSuper then bytes % 512 = 0 && env.reads && (logicalName table batch.suffix part.bare).isSome
    else env.accepts part bytes

def select (target : String × Nat) : Except Reason Selected :=
  if isBlockPath target.1 then pure (.device target.1)
  else if isLogicalPath target.1 then do
    let bare := String.ofList (target.1.toList.drop 9)
    ensure (bare ≠ "" ∧ bare.toList.all nameCharacter ∧ target.2 ≠ 0 ∧ target.2 % 512 = 0) .packageTarget
    ensure env.reads .metadata
    ensure (batch.layout.isSome ∨ table.findPartition (bare ++ batch.suffix) ≠ none) (.missingPartition bare)
    pure (.logical target.1 ⟨bare ++ batch.suffix, target.2⟩)
  else do
    let part ← require (batch.findPartitionByPath target.1) (.invalidTarget target.1)
    ensure (validateImageFlashTarget env batch table part target.2) (.invalidTarget target.1)
    if part.isSuper then
      ensure env.readsBatch .batchMetadata
      let name ← require (logicalName table batch.suffix part.bare) (.missingTarget part.bare)
      pure (.super target.1 part ⟨name, target.2⟩)
    else pure (.physical target.1 part)

end

/-- What preparation is going to do, once the targets are known and a ROM layout has been planned. -/
structure Plan where
  batch : Batch
  table : MetadataBuilder
  entries : List Selected
  builder : MetadataBuilder

namespace Plan

variable (p : Plan)

def images : List LogicalImageSize := p.entries.filterMap Selected.image

def cows : List String :=
  ((p.table.listPartitionsInGroup "cow").map Partition.name).filter fun name =>
    4 < name.length ∧ "-cow".toList <:+ name.toList

def affected : List String :=
  (((p.table.listGroups.flatMap p.table.listPartitionsInGroup).map Partition.name).filter
    (fun name => InSlot p.batch.suffix name) ++ p.images.map LogicalImageSize.name).dedup.insertionSort (· ≤ ·)

def changed : List String :=
  (p.images.filter fun image => (p.builder.findPartition image.name).map Partition.size ≠ some image.bytes).map
    LogicalImageSize.name

def packageName : Selected → Option String
  | .logical _ image => some image.name
  | _ => none

def layoutMappings : List String :=
  match p.batch.layout with
  | some _ => p.affected
  | none => (p.entries.filterMap packageName).filter (· ∈ p.changed)

def resizedPart : Selected → Option TWPartition
  | .super _ part _ =>
    if part.bare ++ p.batch.suffix ∈ p.changed ∨ part.bare ∈ p.changed then some part else none
  | _ => none

def resized : List TWPartition := p.entries.filterMap p.resizedPart

def updated : Except String MetadataBuilder := planImageFlashLayout p.builder p.images p.cows

def replaces : Prop := p.batch.layout.isSome ∨ p.changed ≠ [] ∨ p.cows ≠ []

instance : Decidable p.replaces := inferInstanceAs (Decidable (_ ∨ _))

def remap : List String :=
  match p.batch.layout with
  | some _ => p.images.map LogicalImageSize.name
  | none => p.changed

end Plan

structure Journal where
  resized : List TWPartition := []
  metadataChanged : Bool := false
  unmappedCows : List String := []
  layoutMappings : List String := []
  originalMappings : List String := []

structure Flash where
  world : World
  journal : Journal

def onWorld (allowed : Bool) (f : World → Option World) (s : Flash) : Option Flash :=
  if allowed then (f s.world).map fun w => { s with world := w } else none

section

variable (env : Environment) (name : String)

def destroy (reason : Reason) : Command Reason Flash Unit :=
  attempt (onWorld (env.destroys name) fun w => w.destroyLogicalPartition name) reason

def map (reason : Reason) : Command Reason Flash Unit :=
  attempt (onWorld (env.maps name) fun w => w.createLogicalPartition name) reason

def record (f : Journal → Journal) : Command Reason Flash Unit := modify fun s => { s with journal := f s.journal }

def isMapped : Command Reason Flash Bool := do return ((← get).world.mapped name).isSome

def demand (c : Bool) (reason : Reason) : Command Reason Flash Unit := ofExcept (ensure c reason)

def releaseLayout : Command Reason Flash Unit := do
  if ← isMapped name then
    record fun j => { j with originalMappings := j.originalMappings ++ [name] }
    destroy env name (.layoutTarget name)

def releaseTarget (layoutMappings : List String) (name : String) : Command Reason Flash Unit := do
  if name ∉ layoutMappings then destroy env name (.logicalTarget name)

def releaseCow : Command Reason Flash Unit := do
  if ← isMapped name then
    destroy env name (.staleCow name)
    record fun j => { j with unmappedCows := j.unmappedCows ++ [name] }

def updatePartitionTable (table : MetadataBuilder) : Command Reason Flash Unit := do
  modify fun s => if env.commits || env.written then { s with world := { s.world with table } } else s
  demand env.commits .commit

def replaceTable (p : Plan) (updated : MetadataBuilder) : Command Reason Flash Unit := do
  record fun j => { j with resized := p.resized }
  p.layoutMappings.forM (releaseLayout env)
  p.changed.forM (releaseTarget env p.layoutMappings)
  p.cows.forM (releaseCow env)
  demand env.idleAgain .snapshotsChanged
  record fun j => { j with metadataChanged := true }
  updatePartitionTable env updated
  p.remap.forM fun name => map env name (.mapTarget name)

def romBuilder (batch : Batch) (table : MetadataBuilder) (images : List LogicalImageSize) :
    Except Reason MetadataBuilder :=
  match batch.layout with
  | none => .ok table
  | some layout => (planRomImageLayout table layout batch.suffix images).mapError .romLayout

def prepareLogical (p : Plan) : Command Reason Flash Unit := do
  record fun j => { j with layoutMappings := p.layoutMappings }
  let updated ← ofExcept (p.updated.mapError .layout)
  demand env.exports .limits
  if p.replaces then replaceTable env p updated

def prepareImages (batch : Batch) (table : MetadataBuilder) (entries : List Selected) :
    Command Reason Flash Unit := do
  if entries.filterMap Selected.image ≠ [] then
    demand env.idle .snapshotsActive
    let builder ← ofExcept (romBuilder batch table (entries.filterMap Selected.image))
    prepareLogical env ⟨batch, table, entries, builder⟩

def finishTarget : Selected → Command Reason Flash Unit
  | .device _ => pure ()
  | .logical _ image => do
      if !(← isMapped image.name) then map env image.name .mapImage
  | .physical target _ | .super target _ _ => demand (env.hasBlock target) (.blockDevice target)

def prepareImageFlashTargets (batch : Batch) : Command Reason Flash Unit := do
  demand (!batch.targets.isEmpty) .noTargets
  let table := (← get).world.table
  let entries ← ofExcept (batch.targets.mapM (select env batch table))
  prepareImages env batch table entries
  entries.forM (finishTarget env)

end

section

/-- A step of the rollback that goes on after a failure and remembers it. -/
def keepGoing (f : World → Option World) (s : World × Bool) : World × Bool :=
  match f s.1 with
  | some w => (w, s.2)
  | none => (s.1, false)

variable (s : World × Bool) (name : String)

def rollbackDestroy : World × Bool := keepGoing (·.destroyLogicalPartition name) s

def rollbackCreate : World × Bool := keepGoing (·.createLogicalPartition name) s

def rollbackRelease : World × Bool :=
  if (s.1.mapped name).isSome then rollbackDestroy s name else s

def Journal.untouched (j : Journal) : Bool :=
  j.resized.isEmpty && !j.metadataChanged && j.unmappedCows.isEmpty && j.layoutMappings.isEmpty

/-- The rollback: release what the journals name, write the original table back if everything was released, and map
again. The text is added to the error. -/
def rollback (original : MetadataBuilder) (suffix : String) (s : Flash) : World × String :=
  let j := s.journal
  if j.untouched then (s.world, "")
  else match j.resized.mapM fun part => logicalName original suffix part.bare with
    | none => (s.world, ". Cannot identify a logical target for Super metadata rollback")
    | some mappings =>
      let released := mappings.foldl rollbackDestroy (j.layoutMappings.foldl rollbackRelease (s.world, true))
      let table := if released.2 then original else released.1.table
      let existed := j.originalMappings.filter fun name => (original.findPartition name).isSome
      let remapped := (mappings ++ existed ++ j.unmappedCows).foldl rollbackCreate ({ released.1 with table }, true)
      (remapped.1, if released.2 ∧ remapped.2 then "" else
        ". Could not fully restore original Super metadata/mappings after preparation failed; keep recovery running")

end

variable (env : Environment) (batch : Batch)

def classify (target : String) : Except Reason Bool :=
  if isLogicalPath target then pure true
  else if isBlockPath target then do
    ensure (env.resolves target) (.unresolved target)
    pure false
  else do
    let part ← require (batch.findPartitionByPath target) (.unresolved target)
    if part.isSuper then pure true
    else do
      ensure (env.resolves target) (.unresolved target)
      pure false

structure Outcome where
  world : World
  failed : Option Reason
  error : String

def prepareAndClaim : Command Reason Flash Unit := do
  prepareImageFlashTargets env batch
  demand env.claims .claim

def runImageFlashBatch (w : World) : Outcome :=
  match batch.targets.mapM fun target => classify env batch target.1 with
  | .error reason => ⟨w, some reason, reason.message⟩
  | .ok logical =>
    if !env.quiesces then ⟨w, some .dependencies, ""⟩
    else if logical.any id && !env.checkpoints then ⟨w, some .checkpoint, Reason.checkpoint.message⟩
    else
      match (prepareAndClaim env batch).start ⟨w, {}⟩ with
      | (.ok _, s) => ⟨s.world, none, ""⟩
      | (.error reason, s) =>
        if logical.any id then
          let (w', text) := rollback w.table batch.suffix s
          ⟨w', some reason, reason.message ++ text⟩
        else ⟨s.world, some reason, reason.message⟩

end AeraRecovery.Super
