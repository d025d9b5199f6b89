import AeraRecovery.Settings.Repair

namespace AeraRecovery.Settings.Restore

open Lib Bytes Crash Directory Repair

def androidSettingsFiles : List File := [.system, .secure, .global]

def maximumAndroidSettingsBytes : Nat := 2 * 1024 * 1024

inductive Validation
  | none
  | settingsXml
  | sqlite
  deriving DecidableEq

variable (contents : Bytes)

def looksLikeSettingsXml : Bool :=
  let size := contents.length
  let beginning := contents.take 1024
  let ending := (contents.drop (if 1024 < size then size - 1024 else 0)).take 1024
  0 < size && size ≤ maximumAndroidSettingsBytes && ascii "<?xml" <:+: beginning &&
    ascii "<settings" <:+: beginning && ascii "</settings>" <:+: ending

def looksLikeSqlite : Bool :=
  100 ≤ contents.length && contents.length ≤ maximumAndroidSettingsBytes &&
    contents.take 16 == ascii "SQLite format 3" ++ [0]

def validContents : Validation → Bool
  | .none => true
  | .settingsXml => looksLikeSettingsXml contents
  | .sqlite => looksLikeSqlite contents

/-- The contents behind a source name, if `openat` and the checks on it pass. -/
def validSource (source : Option Node) (maximum : Nat) (validation : Validation) : Option Bytes :=
  match source with
  | some (.file contents) =>
    if 0 < contents.length ∧ contents.length ≤ maximum ∧ validContents contents validation
    then some contents else none
  | _ => none

/-- The backup directory as the restore sees it. The restore only reads it. -/
structure Snapshot where
  manifest : Option Node
  file : File → Option Node

def androidManifestWithoutLineage : Bytes :=
  ascii "AERA_ANDROID_SETTINGS_V2\nsettings_system.xml\nsettings_secure.xml\nsettings_global.xml\nlineagesettings.db=0\n"

def androidManifestWithLineage : Bytes :=
  ascii "AERA_ANDROID_SETTINGS_V2\nsettings_system.xml\nsettings_secure.xml\nsettings_global.xml\nlineagesettings.db=1\n"

def readAndroidManifest (snapshot : Snapshot) : Option Bool :=
  match snapshot.manifest with
  | some (.file contents) =>
    if contents.length = 0 ∨ 256 < contents.length then none
    else if contents = androidManifestWithLineage then some true
    else if contents = androidManifestWithoutLineage then some false
    else none
  | _ => none

/-- The read and write loop of `CopyBounded`, from its `index`-th buffer on. -/
def copyBuffers (io : Io) (f : File) (maximum : Nat) : Nat → Nat → List Bytes → Prog Dir (Option Nat)
  | index, total, [] => pure (if io (.read f index) then some total else none)
  | index, total, buffer :: rest =>
    if ¬ io (.read f index) then pure none
    else if maximum < total + buffer.length ∨ ¬ io (.write f index) then pure none
    else do
      append (.stagedTemporary f) buffer
      copyBuffers io f maximum (index + 1) (total + buffer.length) rest

variable (io : Io)

/-- `CopyBounded` into the staged name of `f`, with Android's owner and mode. -/
def copyBounded (source : Option Node) (f : File) (maximum : Nat)
    (validation : Validation) : Prog Dir Bool :=
  match validSource source maximum validation with
  | none => pure false
  | some contents => do
      let _ ← unlinkat (.stagedTemporary f)
      if ← createExclusive (.stagedTemporary f) (io (.openCopy f)) then
        if ¬ io (.chownCopy f) then do
          let _ ← unlinkat (.stagedTemporary f)
          pure false
        else do
          match ← copyBuffers io f maximum 0 0 (buffers 4095 contents) with
          | none => pure false
          | some total =>
            if ¬ io (.fsyncCopy f) ∨ total = 0 then pure false
            else do
              let status ← renameat (.stagedTemporary f) (.staged f)
              if status ≠ none then do
                let _ ← unlinkat (.stagedTemporary f)
                pure false
              else pure (io (.syncStaged f))
      else pure false

def stageFiles (io : Io) (snapshot : Snapshot) (validation : Validation) : List File → Prog Dir Bool
  | [] => pure true
  | f :: fs => do
      if ← copyBounded io (snapshot.file f) f maximumAndroidSettingsBytes validation then
        stageFiles io snapshot validation fs
      else do
        removeStagedFiles managedFiles
        pure false

def createRestoreMarker : Prog Dir Bool := do
  let _ ← unlinkat .marker
  if ← createExclusive .marker (io .openMarker) then
    pure (io .chownMarker && io .fsyncMarker && io .syncMarker)
  else pure false

def renameBack : List File → Prog Dir Unit
  | [] => pure ()
  | f :: fs => do
      let _ ← renameat (.previous f) (.live f)
      renameBack fs

def unlinkLive : List File → Prog Dir Unit
  | [] => pure ()
  | f :: fs => do
      let _ ← unlinkat (.live f)
      unlinkLive fs

/-- The common tail of both rollbacks. Its `fsync` result is ignored. -/
def abandon : Prog Dir Bool := do
  let _ ← unlinkat .marker
  removeStagedFiles managedFiles
  pure false

def saveFiles (saved : List File) : List File → Prog Dir Bool
  | [] => pure true
  | f :: fs => do
      let status ← renameat (.live f) (.previous f)
      if status ≠ none then do
        renameBack saved
        abandon
      else saveFiles (saved ++ [f]) fs

def installFiles (targets installed : List File) : List File → Prog Dir Bool
  | [] => pure true
  | f :: fs => do
      let status ← renameat (.staged f) (.live f)
      if status ≠ none then do
        unlinkLive installed
        renameBack targets
        abandon
      else installFiles targets (installed ++ [f]) fs

def unlinkPrevious : List File → Prog Dir Unit
  | [] => pure ()
  | f :: fs => do
      let _ ← unlinkat (.previous f)
      unlinkPrevious fs

def unlinkSidecars : Prog Dir Unit := do
  let _ ← unlinkat (.sidecar .wal)
  let _ ← unlinkat (.sidecar .shm)
  let _ ← unlinkat (.sidecar .journal)

variable (lineageSettings : Bool)

def targetFiles : List File :=
  managedFiles.take (androidSettingsFiles.length + if lineageSettings then 1 else 0)

def commitFiles : Prog Dir Bool :=
  if ¬ io .syncInstalled then pure false
  else do
    let status ← unlinkat .marker
    if status ≠ none ∨ ¬ io .syncCommitted then pure false
    else do
      unlinkPrevious (targetFiles lineageSettings)
      if lineageSettings then unlinkSidecars
      pure (io .syncCleaned)

def replaceFiles : Prog Dir Bool := do
  if ← saveFiles [] (targetFiles lineageSettings) then
    if ← installFiles (targetFiles lineageSettings) [] (targetFiles lineageSettings) then
      commitFiles io lineageSettings
    else pure false
  else pure false

def restoreAndroidSettings (snapshot : Snapshot) : Prog Dir Bool :=
  match readAndroidManifest snapshot with
  | none => pure false
  | some lineageSettings =>
    if ¬ androidSettingsFiles.all fun f =>
        (validSource (snapshot.file f) maximumAndroidSettingsBytes .settingsXml).isSome then pure false
    else if lineageSettings ∧
        validSource (snapshot.file .lineage) maximumAndroidSettingsBytes .sqlite = none then pure false
    else do
      if ← repairInterruptedRestore io then
        if ← stageFiles io snapshot .settingsXml androidSettingsFiles then
          if ← stageFiles io snapshot .sqlite (if lineageSettings then [.lineage] else []) then
            if ← createRestoreMarker io then replaceFiles io lineageSettings
            else do
              removeStagedFiles managedFiles
              pure false
          else pure false
        else pure false
      else pure false

end AeraRecovery.Settings.Restore
