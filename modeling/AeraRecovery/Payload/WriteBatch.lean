import AeraRecovery.Lib.Text
import AeraRecovery.Payload.WriteOperation

namespace AeraRecovery.Payload.WriteBatch

open Lib Checks Text Direct WriteOperation Function List

/-- What `fstat` says about an open file. -/
structure Metadata where
  isBlockDevice : Bool
  rdev : UInt64
  dev : UInt64
  ino : UInt64

def Metadata.identity (m : Metadata) : UInt64 × UInt64 := if m.isBlockDevice then (0, m.rdev) else (m.dev, m.ino)

/-- What a descriptor refers to: two descriptors of one object write to the same bytes. -/
inductive Object
  | device (rdev : UInt64)
  | inode (dev ino : UInt64)
  deriving DecidableEq

def Metadata.object (m : Metadata) : Object := if m.isBlockDevice then .device m.rdev else .inode m.dev m.ino

structure File where
  metadata : Metadata
  readable : Bool := true

def File.object (file : File) : Object := file.metadata.object

/-- The arguments of `write_batch`, with the libraries it calls. -/
structure Batch extends Source where
  files : List File
  parts : List PartitionUpdate
  workers : Nat

def Batch.operations (b : Batch) (i : Nat) : List InstallOperation := ((b.parts[i]?).map (·.operations)).getD []

def checkTarget (seen : List (UInt64 × UInt64) × List Bytes) (target : File × PartitionUpdate) :
    Except String (List (UInt64 × UInt64) × List Bytes) := do
  let identity := target.1.metadata.identity
  let name := target.2.partitionName
  ensure target.1.readable "Cannot read target metadata"
  ensure (identity ∉ seen.1 ∧ name ∉ seen.2) "Duplicate direct target"
  ensure (nameAccepted name) "Invalid partition name"
  pure (seen.1 ++ [identity], seen.2 ++ [name])

variable (b : Batch)

def precheck : Except String (List UInt64 × UInt64) := do
  ensure (b.parts ≠ [] ∧ b.parts.length ≤ 256 ∧ b.files.length = b.parts.length) "Invalid target mapping"
  let sizes ← b.parts.mapM fun p => validate p b.block b.data
  let totalSize ← require (sizes.foldlM checkedAdd 0) "Batch size overflow"
  let _ ← (b.files.zip b.parts).foldlM checkTarget ([], [])
  pure (sizes, totalSize)

def order (sizes : List UInt64) : List Nat :=
  (range sizes.length).insertionSort fun i j => sizes.getD j 0 ≤ sizes.getD i 0

def tasks (sizes : List UInt64) : List (Nat × Nat) :=
  let order := order sizes
  let maxOps := (order.map fun i => (b.operations i).length).foldl max 0
  (range maxOps).flatMap fun op => (order.filter fun i => op < (b.operations i).length).map fun i => (i, op)

def partitionLine (name : Bytes) (phase : Phase) (count size : Nat) : Bytes :=
  Bytes.ascii "AERA_PARTITION" ++ 32 :: (name ++ 32 :: (phase.label ++ 32 :: (decimal count ++ 32 :: decimal size)))

def progressLine (done size : Nat) : Bytes :=
  Bytes.ascii "AERA_PROGRESS" ++ 32 :: (decimal done ++ 32 :: decimal size)

/-- Where a report is: about to load `phase[i]`, or, with that loaded, about to load `done[i]`. -/
inductive Scan
  | phase (i total : Nat)
  | count (i total : Nat) (state : Phase)

def Scan.step (entries : List (Bytes × UInt64)) (totalSize : UInt64) (target : Nat → Target) :
    Scan → Option Bytes × Option Scan
  | .phase i total =>
    if i < entries.length then (none, some (.count i total (target i).phase))
    else (some (progressLine total totalSize.toNat), none)
  | .count i total state =>
    let count := (target i).done
    let entry := entries.getD i ([], 0)
    (if state = .queued then none else some (partitionLine entry.1 state count entry.2.toNat),
      some (.phase (i + 1) (total + count)))

inductive Error
  | rejected (message : String)
  | pool | spawn
  | target (i : Nat) (e : TaskError)
  | reporter

inductive Reporter
  | unborn | top | scan (scan : Scan) | exited | panicked

inductive Main
  | check | build | spawn | install
  | join (result : Except Error Unit)
  | report (scan : Scan) (result : Except Error Unit)
  | returned (result : Except Error Unit)
  | panicked

structure State where
  main : Main := .check
  reporter : Reporter := .unborn
  sizes : List UInt64 := []
  totalSize : UInt64 := 0
  cancelled : Bool := false
  stop : Bool := false
  target : Nat → Target
  log : Object → List Effect := fun _ => []
  pc : Nat → Nat → Pc := fun _ _ => .queued
  output : List Bytes := []

def start : State where
  target i := ⟨0, .queued, (b.operations i).length⟩

inductive Action
  | start (i op : Nat)
  | skip (i op : Nat)
  | task (i op : Nat) (outcome : Outcome)
  | reporter (printed : Bool)
  | main (succeeded : Bool)

variable (s : State) (i op : Nat)

def State.setPc (pc : Pc) : State :=
  { s with pc := update s.pc i (update (s.pc i) op pc) }

def running (b : Batch) (s : State) : Nat := (tasks b s.sizes).countP fun t => (s.pc t.1 t.2).running

def startStep : Option State :=
  match s.main, s.pc i op with
  | .install, .queued =>
    if (i, op) ∈ tasks b s.sizes ∧ running b s < max 1 (min b.workers 16) then some (s.setPc i op .guard) else none
  | _, _ => none

/-- After an error the pool drops the tasks that are still waiting. -/
def skipStep : Option State :=
  match s.main, s.pc i op with
  | .install, .queued =>
    if (i, op) ∈ tasks b s.sizes ∧ ∃ t ∈ tasks b s.sizes, (s.pc t.1 t.2).error ≠ none then
      some (s.setPc i op .skipped)
    else none
  | _, _ => none

def runTask (outcome : Outcome) : Option State := do
  let file ← b.files[i]?
  let o ← (b.operations i)[op]?
  let (m, pc) ← taskStep b.toSource o outcome ⟨s.cancelled, s.target i, s.log file.object⟩ (s.pc i op)
  some { s.setPc i op pc with
    cancelled := m.cancelled
    target := update s.target i m.target
    log := update s.log file.object m.log }

def entries : List (Bytes × UInt64) := (b.parts.map (·.partitionName)).zip s.sizes

def reporterStep (printed : Bool) : Option State :=
  match s.reporter with
  | .top => some { s with reporter := if s.stop then .exited else .scan (.phase 0 0) }
  | .scan scan =>
    -- `println!` panics if standard output does not take the line
    let (line, next) := scan.step (entries b s) s.totalSize s.target
    if line.isSome && !printed then some { s with reporter := .panicked }
    else some { s with output := s.output ++ line.toList, reporter := (next.map .scan).getD .top }
  | _ => none

def result : Except Error Unit :=
  match (tasks b s.sizes).findSome? fun t => (s.pc t.1 t.2).error.map fun e => (t.1, e) with
  | some (i, e) => .error (.target i e)
  | none => .ok ()

def mainStep (succeeded : Bool) : Option State :=
  match s.main with
  | .check =>
    match precheck b with
    | .error message => some { s with main := .returned (.error (.rejected message)) }
    | .ok (sizes, totalSize) => some { s with sizes, totalSize, main := .build }
  | .build => some { s with main := if succeeded then .spawn else .returned (.error .pool) }
  | .spawn =>
    if succeeded then some { s with reporter := .top, main := .install }
    else some { s with main := .returned (.error .spawn) }
  | .install =>
    if (tasks b s.sizes).all fun t => (s.pc t.1 t.2).over then some { s with stop := true, main := .join (result b s) }
    else none
  | .join result =>
    match s.reporter with
    | .exited => some { s with main := .report (.phase 0 0) result }
    | .panicked => some { s with main := .returned (.error .reporter) }
    | _ => none
  | .report scan result =>
    let (line, next) := scan.step (entries b s) s.totalSize s.target
    if line.isSome && !succeeded then some { s with main := .panicked }
    else
      let main := (next.map (.report · result)).getD (.returned result)
      some { s with output := s.output ++ line.toList, main }
  | .returned _ | .panicked => none

def step : Action → Option State
  | .start i op => startStep b s i op
  | .skip i op => skipStep b s i op
  | .task i op outcome => runTask b s i op outcome
  | .reporter printed => reporterStep b s printed
  | .main succeeded => mainStep b s succeeded

def run (actions : List Action) (s : State) : Option State := actions.foldlM (step b) s

inductive ReporterMove (b : Batch) (s : State) : State → Prop
  | exited (hreporter : s.reporter = .top) (hstop : s.stop = true) : ReporterMove b s { s with reporter := .exited }
  | began (hreporter : s.reporter = .top) : ReporterMove b s { s with reporter := .scan (.phase 0 0) }
  | panicked (scan) (hreporter : s.reporter = .scan scan) : ReporterMove b s { s with reporter := .panicked }
  | reported (scan) (line) (next) (hreporter : s.reporter = .scan scan)
      (hscan : scan.step (entries b s) s.totalSize s.target = (line, next)) :
      ReporterMove b s { s with output := s.output ++ line.toList, reporter := (next.map .scan).getD .top }

inductive MainMove (b : Batch) (s : State) : State → Prop
  | rejected (message) (hmain : s.main = .check) (hprecheck : precheck b = .error message) :
      MainMove b s { s with main := .returned (.error (.rejected message)) }
  | admitted (sizes) (totalSize) (hmain : s.main = .check) (hprecheck : precheck b = .ok (sizes, totalSize)) :
      MainMove b s { s with sizes, totalSize, main := .build }
  | built (hmain : s.main = .build) : MainMove b s { s with main := .spawn }
  | unbuilt (hmain : s.main = .build) : MainMove b s { s with main := .returned (.error .pool) }
  | spawned (hmain : s.main = .spawn) : MainMove b s { s with reporter := .top, main := .install }
  | unspawned (hmain : s.main = .spawn) : MainMove b s { s with main := .returned (.error .spawn) }
  | collected (hmain : s.main = .install) (hover : ∀ t ∈ tasks b s.sizes, (s.pc t.1 t.2).over = true) :
      MainMove b s { s with stop := true, main := .join (result b s) }
  | joined (r) (hmain : s.main = .join r) (hreporter : s.reporter = .exited) :
      MainMove b s { s with main := .report (.phase 0 0) r }
  | lost (r) (hmain : s.main = .join r) (hreporter : s.reporter = .panicked) :
      MainMove b s { s with main := .returned (.error .reporter) }
  | panicked (scan) (r) (hmain : s.main = .report scan r) : MainMove b s { s with main := .panicked }
  | reported (scan) (r) (line) (next) (hmain : s.main = .report scan r)
      (hscan : scan.step (entries b s) s.totalSize s.target = (line, next)) :
      MainMove b s
        { s with output := s.output ++ line.toList, main := (next.map (.report · r)).getD (.returned r) }

variable {b : Batch} {s s' : State}

theorem reporterStep_move {printed : Bool} (h : reporterStep b s printed = some s') : ReporterMove b s s' := by
  rw [reporterStep] at h
  split at h
  · next hreporter =>
    cases h
    split_ifs with hstop
    · exact .exited hreporter hstop
    · exact .began hreporter
  · next scan hreporter =>
    dsimp only at h
    split_ifs at h
    · cases h
      exact .panicked scan hreporter
    · cases h
      exact .reported scan _ _ hreporter rfl
  · cases h

theorem mainStep_move {succeeded : Bool} (h : mainStep b s succeeded = some s') : MainMove b s s' := by
  rw [mainStep] at h
  split at h
  · next hmain =>
    split at h
    · next hprecheck =>
      cases h
      exact .rejected _ hmain hprecheck
    · next hprecheck =>
      cases h
      exact .admitted _ _ hmain hprecheck
  · next hmain =>
    cases succeeded with
    | true =>
      cases h
      exact .built hmain
    | false =>
      cases h
      exact .unbuilt hmain
  · next hmain =>
    split_ifs at h
    · cases h
      exact .spawned hmain
    · cases h
      exact .unspawned hmain
  · next hmain =>
    split_ifs at h with hover
    cases h
    exact .collected hmain (all_eq_true.mp hover)
  · next hmain =>
    split at h
    · next hreporter =>
      cases h
      exact .joined _ hmain hreporter
    · next hreporter =>
      cases h
      exact .lost _ hmain hreporter
    · cases h
  · next scan r hmain =>
    dsimp only at h
    split_ifs at h
    · cases h
      exact .panicked scan r hmain
    · cases h
      exact .reported scan r _ _ hmain rfl
  · cases h
  · cases h

end AeraRecovery.Payload.WriteBatch
