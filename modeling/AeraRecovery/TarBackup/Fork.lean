import AeraRecovery.TarBackup.Walk

namespace AeraRecovery.TarBackup

open Lib Bytes Division Listing

def maxArchiveSize : Nat := 1610612736

def maxArchiveCount : Nat := 247

/-- Which archive is open, how full it is, and what was added so far, each with the number of its archive. -/
structure Archiving where
  archiveCount : Nat := 0
  archiveCurrentSize : Nat := 0
  added : List (Nat × Bytes) := []

def Archiving.addFile (s : Archiving) (fn : Bytes) : Archiving := { s with added := s.added ++ [(s.archiveCount, fn)] }

def tarLoop (splitArchives : Bool) (threadId : Nat) : List TarItem → Archiving → Int × Archiving
  | [], s => (0, s)
  | item :: list, s =>
    if item.threadId ≠ threadId then tarLoop splitArchives threadId list s
    else
      match item.kind with
      | .reg fs =>
        if splitArchives ∧ s.archiveCurrentSize + fs > maxArchiveSize then
          let s := { s with archiveCount := s.archiveCount + 1, archiveCurrentSize := 0 }
          if s.archiveCount > maxArchiveCount then (-4, s)
          else tarLoop splitArchives threadId list ({ s with archiveCurrentSize := fs }.addFile item.fn)
        else tarLoop splitArchives threadId list
          ({ s with archiveCurrentSize := s.archiveCurrentSize + fs }.addFile item.fn)
      | _ => tarLoop splitArchives threadId list (s.addFile item.fn)

def tarList (list : List TarItem) (splitArchives : Bool) (threadId : Nat) : Int × Archiving :=
  tarLoop splitArchives threadId list {}

structure Stage where
  list : List TarItem
  threads : List Nat
  splitArchives : Bool

/-- Whether everything ended well, and the paths that were added to archives. -/
structure Outcome where
  ok : Bool
  added : List Bytes
  deriving DecidableEq

/-- A thread that fails does not stop the others before they are joined. -/
def Stage.run (s : Stage) : Outcome where
  ok := s.threads.all fun t => (tarList s.list s.splitArchives t).1 = 0
  added := s.threads.flatMap fun t => (tarList s.list s.splitArchives t).2.added.map Prod.snd

def runStages : List Stage → Outcome
  | [] => ⟨true, []⟩
  | s :: rest =>
    if s.run.ok then ⟨(runStages rest).ok, s.run.added ++ (runStages rest).added⟩ else s.run

inductive Encryption
  | none | all | userdata
  deriving DecidableEq

/-- What a backup is made of. `cores` is the number of processors that the system reports. -/
structure Backup where
  exclusions : TWExclude
  tardir : Bytes
  tree : Tree
  encryption : Encryption
  cores : Nat
  cores_pos : 0 < cores
  totalBackupSize : Nat
  adbbackup : Bool

namespace Backup

variable (b : Backup)

/-- Folders of applications are not encrypted in the mode for user data. -/
def apart (name : Bytes) : Bool :=
  b.encryption = .userdata ∧ (name.take 3 = ascii "app" ∨ name.take 6 = ascii "dalvik")

def firstLoop (b : Backup) : Listing → Walk × Nat → Walk × Nat
  | .nil, s => s
  | .file name type size rest, s =>
    if type = .blk ∨ type = .chr ∨ b.exclusions.checkSkipDirs (join b.tardir name) none then b.firstLoop rest s
    else if type = .reg then b.firstLoop rest (s.1, s.2 + size) else b.firstLoop rest s
  | .directory name identity contents rest, s =>
    let fileName := join b.tardir name
    if b.exclusions.checkSkipDirs fileName (some identity) then b.firstLoop rest s
    else if b.apart name then b.firstLoop rest (generateTarList b.exclusions 0 fileName contents s.1, s.2)
    else b.firstLoop rest (s.1, s.2 + getFolderSize b.exclusions fileName contents)

def secondLoop (b : Backup) (target : Nat) : Listing → Walk → Walk
  | .nil, s => s
  | .file name type size rest, s =>
    let fileName := join b.tardir name
    if type = .blk ∨ type = .chr ∨ b.exclusions.checkSkipDirs fileName none then b.secondLoop target rest s
    else
      match type with
      | .reg => b.secondLoop target rest
          ⟨s.list ++ [⟨⟨fileName, .reg size⟩, s.counter.group⟩], ⟨s.counter.current + size, s.counter.group⟩⟩
      | .lnk => b.secondLoop target rest ⟨s.list ++ [⟨⟨fileName, .lnk⟩, s.counter.group⟩], s.counter⟩
      | _ => b.secondLoop target rest s
  | .directory name identity contents rest, s =>
    let fileName := join b.tardir name
    if b.exclusions.checkSkipDirs fileName (some identity) then b.secondLoop target rest s
    else if b.apart name then b.secondLoop target rest s
    else b.secondLoop target rest (generateTarList b.exclusions target fileName contents s)

def coreCount : Nat := if b.cores > 8 then 8 else b.cores

def regular : Walk × Nat := b.firstLoop b.tree.listing (⟨[], ⟨0, 0⟩⟩, 0)

def targetSize : Nat := b.regular.2 / b.coreCount + 1

def startThread : Nat := if b.encryption = .userdata then 1 else 0

def lastThread : Nat := if b.encryption = .userdata then b.coreCount else b.coreCount - 1

def encrypted : Walk := b.secondLoop b.targetSize b.tree.listing ⟨[], ⟨0, b.startThread⟩⟩

def threads : List Nat := List.range' b.startThread (b.lastThread + 1 - b.startThread)

def stages : List Stage :=
  match b.encryption with
  | .none =>
    [⟨(generateTarList b.exclusions 0 b.tardir b.tree.listing ⟨[], ⟨0, 0⟩⟩).list, [0],
      b.totalBackupSize > maxArchiveSize ∧ b.adbbackup = false⟩]
  | .all => [⟨b.encrypted.list, b.threads, true⟩]
  | .userdata => [⟨b.regular.1.list, [0], true⟩, ⟨b.encrypted.list, b.threads, true⟩]

def createTarFork : Outcome :=
  if b.encryption ≠ .none ∧ b.encrypted.counter.group > b.lastThread then ⟨false, []⟩ else runStages b.stages

end Backup

end AeraRecovery.TarBackup
