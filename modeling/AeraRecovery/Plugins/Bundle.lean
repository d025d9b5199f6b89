import AeraRecovery.Lib.Checks
import AeraRecovery.Lib.FileSystem
import AeraRecovery.Lib.Text

namespace AeraRecovery.Plugins

open Lib Bytes Checks FileSystem Text

inductive Trust
  | official
  | unofficial
  deriving DecidableEq

/-- What the manifest says. A list is absent if its value is no array, an element of it if it has the wrong type. -/
structure Plugin where
  id : Bytes
  name : Bytes
  version : Bytes
  description : Bytes
  type : Bytes
  entry : Bytes
  payloadName : Bytes
  payloadSha256 : Bytes
  payloadSize : Nat
  expandedSize : Nat := 0
  expandedSha256 : Bytes := []
  memberCount : Nat := 0
  minHostApi : Nat
  protocolVersion : Nat := 1
  executable : Bytes := []
  icon : Bytes := ascii "plugin"
  fontFamily : Bytes := []
  commands : Option (List (Option (Bytes × Bytes))) := some []
  permissions : Option (List (Option Bytes)) := some []
  trust : Trust := .unofficial

/-- The JSON reader, which also selects the localized texts and refuses all but objects of schema 1, the check of a
signature under the built-in key, and the hash. -/
structure Libraries where
  readJson : Bytes → Option Plugin
  verify : Bytes → Bytes → Bool
  sha256 : Bytes → Bytes

inductive Failure
  | extension | package | archive | unsupportedFiles | directory | manifest | commands | permissions | policy | runtime
  | metadata | installedManifest | installedPayload | unconfirmed | identity | memoryStore | storage | staging | extract
  | integrity | publish
  deriving DecidableEq

variable (c : UInt8)

def isLower : Bool := 97 ≤ c && c ≤ 122

def isUpper : Bool := 65 ≤ c && c ≤ 90

def toLower : UInt8 := if isUpper c then c + 32 else c

def isXDigit : Bool := isDigit c || (97 ≤ toLower c && toLower c ≤ 102)

def kMaxManifest : Nat := 64 * 1024

def kMaxSignature : Nat := 4096

def kMaxPayload : Nat := 512 * 1024 * 1024

def kMaxPackage : Nat := kMaxPayload + 1024 * 1024

def kHostApi : Nat := 2

def safeId (id : Bytes) : Bool :=
  id ≠ [] && id.length ≤ 64 && id.head? ≠ some 46 && id.getLast? ≠ some 46 &&
    id.all fun c => isLower c || isDigit c || c = 45 || c = 46

def validConsoleName (name : Bytes) : Bool :=
  name.length ≤ 32 && name.head?.any isLower && name.all fun c => isLower c || isDigit c || c = 45 || c = 95

def validConsoleExecutable (path : Bytes) : Bool :=
  path ≠ [] && path.length ≤ 200 && path.head? ≠ some 47 && path.getLast? ≠ some 47 &&
    (path.splitOn 47).all fun part => part ≠ [] && part ≠ ascii "." && part ≠ ascii ".." &&
      part.all fun c => isLower c || isUpper c || isDigit c || c = 45 || c = 95 || c = 46

namespace Plugin

variable (plugin : Plugin)

def commandsOk : Bool :=
  plugin.commands.any fun commands =>
    commands.length ≤ 8 && (commands.all fun command => command.any fun (name, executable) =>
      validConsoleName name && validConsoleExecutable executable) && decide (commands.map (·.map Prod.fst)).Nodup

def permissionsOk : Bool :=
  plugin.permissions.any fun permissions =>
    permissions.length ≤ 16 && permissions.all fun permission => permission.any fun name =>
      name ≠ [] && name.length ≤ 40 && name.all fun c => isLower c || isDigit c || c = 45

def permissionNames : List Bytes := (plugin.permissions.getD []).filterMap fun name => name

def legacy : List (Bytes × Bytes × Bytes) :=
  (ascii "browser", ascii "browser-runtime", ascii "browser") ::
    [ascii "retroarch", ascii "doom", ascii "telegram", ascii "gallery", ascii "media", ascii "recorder",
      ascii "appvault", ascii "streams"].map fun name => (name, ascii "app-runtime", name)

def legacyEntry : Bool := legacy.contains (plugin.id, plugin.type, plugin.entry)

def genericEntry : Bool :=
  plugin.type = ascii "ui-runtime" && plugin.entry = ascii "main" && plugin.protocolVersion = 2 &&
    plugin.minHostApi = 2 && plugin.executable = ascii "usr/bin/aera-plugin" && plugin.icon.length ≤ 24

def themeExtension : Bool :=
  plugin.type = ascii "theme-extension" && plugin.entry = ascii "font" && plugin.executable = [] &&
    plugin.permissionNames = [] && plugin.icon.length ≤ 24 &&
    (plugin.payloadName = ascii "font.ttf" || plugin.payloadName = ascii "font.otf") && plugin.fontFamily ≠ [] &&
    plugin.fontFamily.length ≤ 64 && !plugin.fontFamily.any fun c => c < 32 || c = 127

def grantable : List Bytes :=
  [ascii "desktop-surface", ascii "display", ascii "touch-input", ascii "settings-backup", ascii "settings-restore",
    ascii "android-settings-backup", ascii "android-settings-restore", ascii "screen-mirror"]

def grantsOk : Bool :=
  !plugin.genericEntry || plugin.permissionNames.contains (ascii "display") &&
    plugin.permissionNames.contains (ascii "touch-input") && plugin.permissionNames.all grantable.contains

def hashOk (hash : Bytes) : Bool := hash.length = 64 && hash.all isXDigit

def policyOk : Bool :=
  safeId plugin.id && plugin.name ≠ [] && plugin.name.length ≤ 80 && plugin.version ≠ [] &&
    plugin.version.length ≤ 32 && plugin.description.length ≤ 320 && plugin.type ≠ [] && plugin.entry ≠ [] &&
    (if plugin.themeExtension then plugin.payloadSize ≤ 32 * 1024 * 1024 else plugin.payloadName = ascii "runtime.xz") &&
    hashOk plugin.payloadSha256 && (plugin.expandedSha256 = [] || hashOk plugin.expandedSha256) &&
    plugin.payloadSize ≠ 0 && plugin.payloadSize ≤ kMaxPayload && plugin.minHostApi ≠ 0 &&
    plugin.minHostApi ≤ kHostApi && (plugin.legacyEntry || plugin.genericEntry || plugin.themeExtension) &&
    (plugin.themeExtension || plugin.grantsOk)

def runtimeOk : Bool :=
  !(plugin.type = ascii "browser-runtime" || plugin.type = ascii "app-runtime" || plugin.genericEntry) ||
    plugin.expandedSize ≠ 0 && plugin.expandedSize ≤ kMaxPayload && plugin.memberCount ≠ 0 &&
    plugin.memberCount ≤ 4096 && plugin.expandedSha256 ≠ []

end Plugin

section

variable (lib : Libraries)

/-- `ParsePlugin` of a local manifest, whose payload needs no address. -/
def parsePlugin (text : Bytes) : Except Failure Plugin := do
  let plugin ← require (lib.readJson text) .manifest
  ensure (plugin.commandsOk = true) .commands
  ensure (plugin.permissionsOk = true) .permissions
  ensure (plugin.policyOk = true) .policy
  ensure (plugin.runtimeOk = true) .runtime
  return plugin

variable (f : Files Bytes Bytes)

def readBounded (path : List Bytes) (maximum : Nat) : Option Bytes :=
  match f.entry path with
  | some (.file content) => if content.length ≤ maximum then some content else none
  | some (.link _) | some .special | some .dir | none => none

def trustOf (manifest : Bytes) (signature : Option Bytes) : Trust :=
  if signature.any (lib.verify manifest) then .official else .unofficial

def pluginAt (directory : List Bytes) : Except Failure Plugin := do
  let manifest ← require (readBounded f (directory ++ [ascii "plugin.json"]) kMaxManifest) .installedManifest
  let plugin ← parsePlugin lib manifest
  let signature := readBounded f (directory ++ [ascii "plugin.json.sig"]) kMaxSignature
  let size := match f.entry (directory ++ [plugin.payloadName]) with
    | some (.file content) => some content.length
    | some (.link _) | some .special | some .dir | none => none
  ensure (size = some plugin.payloadSize) .installedPayload
  return { plugin with trust := trustOf lib manifest signature }

def scanRoot : List Plugin :=
  (f.list []).filterMap fun id =>
    match safeId id, pluginAt lib f [id] with
    | true, .ok plugin => if plugin.id = id then some plugin else none
    | true, .error _ | false, _ => none

/-- A member of an archive: its declared length, its text if it can be unpacked into memory, and what unpacking it into a
file writes, with the success of that. -/
structure ZipEntry where
  length : Nat
  text : Option Bytes
  data : Bytes × Bool

structure Archive where
  entryCount : Nat
  iterates : Bool
  entries : List (Bytes × ZipEntry)

/-- The selected file: its size if it is a regular file that can be opened, and the archive in it. -/
structure Package where
  path : Bytes
  size : Option Nat
  archive : Option Archive

structure Bundle where
  manifest : Bytes
  signature : Option Bytes
  plugin : Plugin
  payload : ZipEntry

def isPackageFile (name : Bytes) : Bool := 6 ≤ name.length && (name.drop (name.length - 6)).map toLower = ascii ".aerap"

structure Members where
  manifest : Option ZipEntry := none
  signature : Option ZipEntry := none
  payload : Option (Bytes × ZipEntry) := none

def Members.add (found : Members) (member : Bytes × ZipEntry) : Option Members :=
  if member.1 = ascii "plugin.json" ∧ found.manifest.isNone then some { found with manifest := some member.2 }
  else if member.1 = ascii "plugin.json.sig" ∧ found.signature.isNone then some { found with signature := some member.2 }
  else if member.1 ∈ [ascii "runtime.xz", ascii "font.ttf", ascii "font.otf"] ∧ found.payload.isNone then
    some { found with payload := some member }
  else none

def extractText (entry : ZipEntry) (maximum : Nat) : Option Bytes :=
  if maximum < entry.length then none else entry.text

def extractSignature : Option ZipEntry → Except Failure (Option Bytes)
  | none => return none
  | some entry => do return some (← require (extractText entry kMaxSignature) .metadata)

def openLocalBundle (package : Package) : Except Failure Bundle := do
  ensure (isPackageFile package.path = true) .extension
  let size ← require package.size .package
  ensure (0 < size ∧ size ≤ kMaxPackage) .package
  let archive ← require package.archive .archive
  ensure (2 ≤ archive.entryCount ∧ archive.entryCount ≤ 3) .unsupportedFiles
  ensure (archive.iterates = true) .directory
  let found ← require (archive.entries.foldlM Members.add {}) .metadata
  let manifestEntry ← require found.manifest .metadata
  let payload ← require found.payload .metadata
  let manifest ← require (extractText manifestEntry kMaxManifest) .metadata
  let signature ← extractSignature found.signature
  let plugin ← parsePlugin lib manifest
  ensure (payload.1 = plugin.payloadName ∧ payload.2.length = plugin.payloadSize) .metadata
  return ⟨manifest, signature, { plugin with trust := trustOf lib manifest signature }, payload.2⟩

end

end AeraRecovery.Plugins
