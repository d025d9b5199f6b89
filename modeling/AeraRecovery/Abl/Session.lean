import AeraRecovery.Abl.Read
import AeraRecovery.Lib.Hex

namespace AeraRecovery.Abl.Session

open Lib Bytes Image Inspect Read List Option

def hash (sha256 : Bytes → Bytes) (bytes : Bytes) : String :=
  String.ofList ((Hex.hex (sha256 bytes)).map Char.ofUInt8)

/-- What `ReadAbl` meets behind a path: the capacity, unless it cannot be opened or is neither a device nor a file with
contents, and what the `k`-th `ReadAt` of so many bytes gives. -/
structure Medium where
  capacity : Option Nat
  readAt : Nat → Nat → Option Bytes

def Medium.holding (partition : Bytes) : Medium :=
  ⟨some partition.length, fun _ count => if count ≤ partition.length then some (partition.take count) else none⟩

def Medium.extent (m : Medium) (capacity : Nat) (header : Bytes) : Option Nat :=
  match elfExtent header capacity with
  | none => some capacity
  | some e => do
      let bytes ← m.readAt 1 (max 64 (e.table.offset + e.table.size))
      extentLoop bytes e capacity (range e.count) bytes.length

/-- The bytes that `ReadAbl` hashes and inspects; `none` are its early returns. -/
def Medium.contents (m : Medium) : Option Bytes := do
  let capacity ← m.capacity
  if capacity < 64 ∨ maxInput < capacity then none
  else
    let header ← m.readAt 0 64
    let extent ← m.extent capacity header
    if maxInput < extent then none else m.readAt 2 extent

structure Target where
  device : Nat
  medium : Medium

/-- What `aera_frp::Inspect` finds under the two directories. -/
structure Devices where
  byName : String → Option Target
  bootdevice : String → Option Target

def names : List String := ["abl_a", "abl_b", "abl"]

/-- The candidate so far, and whether two of them were different devices. -/
def consider (found : Option Target × Bool) : Option Target → Option Target × Bool
  | none => found
  | some candidate => (some candidate, found.2 || found.1.any (·.device ≠ candidate.device))

def Devices.medium (d : Devices) (name : String) : Option Medium :=
  match [d.byName name, d.bootdevice name].foldl consider (none, false) with
  | (some found, false) => some found.medium
  | _ => none

def Devices.contents (d : Devices) (name : String) : Option Bytes := (d.medium name).bind Medium.contents

structure Change where
  name : String
  seen : String
  absent : Bool
  deriving DecidableEq

structure AblWarning where
  text : String := ""
  token : String := ""
  deriving DecidableEq

def Change.token (c : Change) : String :=
  c.name ++ ":" ++ c.seen ++ ":" ++ (if c.absent then "absent" else "unknown") ++ ";"

def Change.text (c : Change) : String :=
  c.name ++ (if c.absent then
      ": the vulnerable ABL has been overwritten. The EFISP loader is no longer present.\n"
    else ": ABL has changed or cannot be read. EFISP loader support could not be verified.\n")

def advice : String :=
  "\nAn installed EFISP mod may no longer boot, and Android may fail to start. " ++
    "Cancel to restore a compatible vulnerable ABL before leaving recovery, " ++
    "or explicitly continue if this change was intentional."

structure AblSession where
  captured : Bool := false
  baseline : List AblSample := []

variable (s : AblSession) (samples : List AblSample)

def AblSession.capture : AblSession :=
  if s.captured then s else ⟨true, samples⟩

/-- What the loop of `Check` adds for one sample of the baseline. -/
def change (before : AblSample) : Option Change :=
  if before.status ≠ .efispLoader then none
  else match samples.find? fun item => item.name = before.name with
    | none => some ⟨before.name, "unreadable", false⟩
    | some now =>
      if now.digest = before.digest ∧ now.digest ≠ "" then none
      else if now.status = .efispLoader then none
      else some ⟨before.name, now.digest, now.status = .noEfispLoader⟩

def AblSession.changes : List Change :=
  s.baseline.filterMap (change samples)

def AblSession.check : AblWarning :=
  let warning := (s.changes samples).foldl (fun w c => ⟨w.text ++ c.text, w.token ++ c.token⟩) ({} : AblWarning)
  if warning.text = "" then warning else { warning with text := warning.text ++ advice }

def ablStatusName : AblStatus → String
  | .efispLoader => "EFISP loader present"
  | .noEfispLoader => "EFISP loader absent"
  | .unknown => "unknown"

structure Guard where
  session : AblSession := {}
  baselineCache : List AblSample := []
  acknowledged : String := ""
  initialized : Bool := false

section

variable (lzma : Option Lzma) (sha256 : Bytes → Bytes)

def readAbl (m : Medium) (name : String) (cache : List AblSample) : AblSample :=
  match m.contents with
  | none => ⟨name, "", .unknown⟩
  | some bytes =>
    let digest := hash sha256 bytes
    match cache.find? fun previous => previous.name = name ∧ previous.digest = digest with
    | some previous => ⟨name, digest, previous.status⟩
    | none => ⟨name, digest, inspectAbl lzma bytes⟩

def discoverSamples (d : Devices) (cache : List AblSample) : List AblSample :=
  names.filterMap fun name => (d.medium name).map fun m => readAbl lzma sha256 m name cache

variable (g : Guard)

/-- `Enabled` is whether the build has the decoder. -/
def captureAblBaseline (d : Devices) : Guard × String :=
  if lzma.isNone ∨ g.initialized then (g, "")
  else
    let samples := discoverSamples lzma sha256 d []
    let summary := samples.foldl
      (fun text sample =>
        text ++ ("EFISP ABL baseline: " ++ sample.name ++ ": " ++ ablStatusName sample.status ++ "\n")) ""
    ({ g with initialized := true, baselineCache := samples, session := g.session.capture samples },
      if summary = "" then "EFISP ABL baseline: no readable ABL partitions found\n" else summary)

def currentAblSamples (d : Devices) : Guard × List AblSample :=
  if lzma.isNone ∨ ¬ g.initialized then (g, [])
  else
    let samples := discoverSamples lzma sha256 d g.baselineCache
    ({ g with baselineCache := samples }, samples)

def ablExitWarning (d : Devices) : Guard × AblWarning :=
  if lzma.isNone ∨ ¬ g.initialized then (g, {})
  else
    let current := discoverSamples lzma sha256 d g.baselineCache
    let warning := g.session.check current
    ({ g with baselineCache := current }, if warning.token ≠ "" ∧ warning.token = g.acknowledged then {} else warning)

def acknowledgeAblExit (token : String) : Guard := { g with acknowledged := token }

def clearAblExitAcknowledgement : Guard := { g with acknowledged := "" }

/-- The devices of a call are whatever the partitions hold while it runs. -/
inductive Call
  | captureAblBaseline (d : Devices)
  | currentAblSamples (d : Devices)
  | ablExitWarning (d : Devices)
  | acknowledgeAblExit (token : String)
  | clearAblExitAcknowledgement

def step : Call → Guard
  | .captureAblBaseline d => (captureAblBaseline lzma sha256 g d).1
  | .currentAblSamples d => (currentAblSamples lzma sha256 g d).1
  | .ablExitWarning d => (ablExitWarning lzma sha256 g d).1
  | .acknowledgeAblExit token => acknowledgeAblExit g token
  | .clearAblExitAcknowledgement => clearAblExitAcknowledgement g

def run (calls : List Call) : Guard := calls.foldl (step lzma sha256) {}

end

section

variable {partition : Bytes}

theorem extent_holding (hsize : 64 ≤ partition.length) :
    (Medium.holding partition).extent partition.length (partition.take 64) = readExtent partition := by
  rw [Medium.extent, readExtent]
  cases he : elfExtent (partition.take 64) partition.length with
  | none => rfl
  | some e =>
    have hstop := (elfExtent_iff.mp he).2.2.2.2.2.2.1
    have hread : (Medium.holding partition).readAt 1 (max 64 (e.table.offset + e.table.size)) =
        some (partition.take (max 64 (e.table.offset + e.table.size))) :=
      if_pos (max_le hsize hstop)
    simp only [hread, bind_eq_bind, bind_some]

theorem readExtent_le {extent : Nat} (h : readExtent partition = some extent) : extent ≤ partition.length := by
  rw [readExtent, elfExtent_header] at h
  cases he : elfExtent partition partition.length with
  | none =>
    rw [he] at h
    exact (some.inj h).ge
  | some e =>
    rw [he] at h
    obtain ⟨-, -, rfl | ⟨i, -, r, hr, -, rfl⟩⟩ :=
      extentLoop_some he (le_max_right _ _) _ (fun i hi => mem_range.mp hi) _ _ h
    · exact length_take_le' ..
    · exact (program_iff.mp hr).2.2

theorem contents_holding (partition : Bytes) : (Medium.holding partition).contents =
      if partition.length < 64 ∨ maxInput < partition.length then none
      else (readExtent partition).bind fun extent =>
        if maxInput < extent then none else some (partition.take extent) := by
  change (if partition.length < 64 ∨ maxInput < partition.length then none
    else (if 64 ≤ partition.length then some (partition.take 64) else none).bind fun header =>
      ((Medium.holding partition).extent partition.length header).bind fun extent =>
        if maxInput < extent then none
        else if extent ≤ partition.length then some (partition.take extent) else none) = _
  split_ifs with hsmall hsize
  · rfl
  · rw [bind_some, extent_holding hsize]
    cases hextent : readExtent partition with
    | none => rfl
    | some extent => rw [bind_some, bind_some, if_pos (readExtent_le hextent)]
  · omega

end

end AeraRecovery.Abl.Session
