import AeraRecovery.Lib.Hex

namespace AeraRecovery.LockSecurity

open Lib Bytes Text Hex

inductive Kind where
  | pin
  | password
deriving DecidableEq

abbrev Key := { b : Bytes // b.length = 32 }

structure Credential where
  kind : Kind
  fingerprint : Bool
  salt : Key
  hash : Key
deriving DecidableEq

def validSecret (kind : Kind) (value : Bytes) : Bool :=
  match kind with
  | .pin => 4 ≤ value.length && value.length ≤ 16 && value.all isDigit
  | .password => 6 ≤ value.length && value.length ≤ 128 && value.all fun c => !(c < 32 || c = 127)

def unhexKey (s : Bytes) : Option Key :=
  match unhex s with
  | some b => if h : b.length = 32 then some ⟨b, h⟩ else none
  | none => none

def unkind (s : Bytes) : Option Kind :=
  if s = ascii "pin" then some .pin else if s = ascii "password" then some .password else none

def unflag (n : Int) : Option Bool := if n = 0 then some false else if n = 1 then some true else none

/-- The text of a record as `Read` takes it apart. -/
def parse (bytes : Bytes) : Option Credential := do
  let (version, s) ← extractWord bytes
  let (kind, s) ← extractWord s
  let (fingerprint, s) ← extractInt s
  let (salt, s) ← extractWord s
  let (hash, s) ← extractWord s
  if (extractWord s).isSome ∨ version ≠ ascii "AERA_LOCK_1" then none
  else
    let kind ← unkind kind
    let fingerprint ← unflag fingerprint
    let salt ← unhexKey salt
    let hash ← unhexKey hash
    return { kind, fingerprint, salt, hash }

def kindText : Kind → Bytes
  | .pin => ascii "pin"
  | .password => ascii "password"

def format (c : Credential) : Bytes :=
  ascii "AERA_LOCK_1" ++ 32 :: (kindText c.kind ++ 32 :: ((if c.fingerprint then ascii "1" else ascii "0") ++
    32 :: (hex c.salt ++ 32 :: (hex c.hash ++ [10]))))

/-- What stands at the name of the record. `safe` is a file with one link, the own user and no rights of others. -/
inductive Entry where
  | absent
  | file (safe : Bool) (bytes : Bytes)
  | symlink
  | directory
  | special
deriving DecidableEq

/-- The private directory. `unusable` cannot be opened as a directory; `safe` is the own user without rights of others. -/
inductive Folder where
  | missing
  | unusable
  | present (safe : Bool) (entry : Entry)
deriving DecidableEq

def Folder.entry : Folder → Entry
  | .present _ e => e
  | _ => .absent

/-- What `Read` finds: no record, a record that is not valid with the reason, or a valid one. -/
inductive Record where
  | none
  | damaged (error : String)
  | valid (c : Credential)
deriving DecidableEq

structure ReadFaults where
  openDir : Bool := false
  statDir : Bool := false
  openFile : Bool := false
  statFile : Bool := false
  read : Bool := false

def readFile (f : ReadFaults) (safe : Bool) (bytes : Bytes) : Record :=
  if f.statFile || !safe || bytes.length = 0 || 1024 < bytes.length then
    .damaged "Invalid lock settings. The screen remains locked."
  else if f.read then .damaged "Lock settings could not be read."
  else match parse bytes with
    | none => .damaged "Invalid lock settings. The screen remains locked."
    | some c => .valid c

def read (f : ReadFaults) (d : Folder) : Record :=
  if f.openDir then .damaged "Lock settings are unavailable."
  else match d with
    | .missing => .none
    | .unusable => .damaged "Lock settings are unavailable."
    | .present safe e =>
      if f.statDir || !safe then .damaged "Private lock settings have unsafe permissions."
      else if f.openFile then .damaged "Lock settings could not be read."
      else match e with
        | .absent => .none
        | .file safe bytes => readFile f safe bytes
        | .symlink => .damaged "Lock settings could not be read."
        | .directory | .special => .damaged "Invalid lock settings. The screen remains locked."

/-- `Store`. The times are in milliseconds. -/
structure Store where
  folder : Folder
  failures : UInt32 := 0
  retryAt : Nat := 0

abbrev Result := Except String Unit

namespace Store

def retrySeconds (s : Store) (now : Nat) : Nat := if now < s.retryAt then (s.retryAt - now + 999) / 1000 % 2 ^ 32 else 0

def failed (s : Store) (now : Nat) : Store :=
  let failures := s.failures + 1
  let delay := if failures < 5 then 1000 else min 300000 (30000 <<< min 4 ((failures - 5) / 5).toNat)
  { s with failures, retryAt := now + delay }

end Store

section

variable (scrypt : Bytes → Key → Key)

def Credential.matches (c : Credential) (value : Bytes) : Bool := validSecret c.kind value && scrypt value c.salt = c.hash

variable (s : Store) (now later : Nat)

/-- `Check`, at the time `now`; a failure is noted at the time `later`. -/
def Store.check (r : Record) (value : Bytes) : Result × Store :=
  if s.retrySeconds now ≠ 0 then (.error "Too many attempts. Wait before trying again.", s)
  else match r with
    | .none => (.error "No screen-lock credential is configured.", s)
    | .damaged error => (.error error, s)
    | .valid c =>
      if c.matches scrypt value then (.ok (), { s with failures := 0, retryAt := 0 })
      else (.error "Incorrect PIN or password.", s.failed later)

structure WriteFaults where
  mkdir : Bool := false
  openDir : Bool := false
  statDir : Bool := false
  random : Bool := false
  openTemporary : Bool := false
  write : Bool := false
  sync : Bool := false
  rename : Bool := false
  unlink : Bool := false
  syncDir : Bool := false

def Folder.mkdir : Folder → Folder
  | .missing => .present true .absent
  | d => d

/-- `Write`. The temporary file has another name and nothing reads it, so it is not in the model. -/
def Store.write (s : Store) (f : WriteFaults) (c : Credential) : Result × Store :=
  if f.mkdir then (.error "Could not create private lock settings.", s)
  else
    let s := { s with folder := s.folder.mkdir }
    match s.folder with
    | .missing | .unusable => (.error "Private lock settings are unavailable.", s)
    | .present safe e =>
      if f.openDir then (.error "Private lock settings are unavailable.", s)
      else if f.statDir || !safe then (.error "Private lock settings have unsafe permissions.", s)
      else if f.random then (.error "Could not create secure lock settings.", s)
      else if f.openTemporary || f.write || f.sync || f.rename || e = .directory then
        (.error "Could not save the screen lock.", s)
      else
        let s := { s with folder := .present safe (.file true (format c)) }
        if f.syncDir then (.error "Could not synchronize the screen lock.", s) else (.ok (), s)

/-- The rest of `Set` when the current secret is accepted or there is none. `kind` is none for `Kind::None`. -/
def Store.replace (f : WriteFaults) (noSalt : Bool) (salt : Key) (kind : Option Kind)
    (value confirmation : Bytes) : Result × Store :=
  if value ≠ confirmation then (.error "The PIN or password entries do not match.", s)
  else match kind with
    | none => (.error "Use 6 to 128 characters.", s)
    | some kind =>
      if !validSecret kind value then
        (.error (if kind = .pin then "Use 4 to 16 digits." else "Use 6 to 128 characters."), s)
      else if noSalt then (.error "Could not prepare the screen-lock credential.", s)
      else s.write f { kind, fingerprint := false, salt, hash := scrypt value salt }

variable (rf : ReadFaults)

/-- `Set`, with the salt that `RAND_bytes` gives it. -/
def Store.set (f : WriteFaults) (noSalt : Bool) (salt : Key)
    (current : Bytes) (kind : Option Kind) (value confirmation : Bytes) : Result × Store :=
  let old := read rf s.folder
  if old = .none then s.replace scrypt f noSalt salt kind value confirmation
  else match s.check scrypt now later old current with
    | (.error e, s) => (.error e, s)
    | (.ok _, s) => s.replace scrypt f noSalt salt kind value confirmation

def Store.remove (s : Store) (now later : Nat) (rf : ReadFaults) (f : WriteFaults) (current : Bytes) : Result × Store :=
  match s.check scrypt now later (read rf s.folder) current with
  | (.error e, s) => (.error e, s)
  | (.ok _, s) =>
    match s.folder with
    | .missing | .unusable => (.error "Could not remove the screen lock.", s)
    | .present safe e =>
      if f.openDir || f.unlink || e = .absent || e = .directory then (.error "Could not remove the screen lock.", s)
      else
        let s := { s with folder := .present safe .absent }
        if f.syncDir then (.error "Could not remove the screen lock.", s) else (.ok (), s)

def Store.setFingerprint (f : WriteFaults) (current : Bytes)
    (enabled : Bool) : Result × Store :=
  let record := read rf s.folder
  match s.check scrypt now later record current, record with
  | (.ok _, s), .valid c => s.write f { c with fingerprint := enabled }
  | (r, s), _ => (r, s)

def Store.verify (value : Bytes) : Result × Store :=
  s.check scrypt now later (read rf s.folder) value

end

end AeraRecovery.LockSecurity
