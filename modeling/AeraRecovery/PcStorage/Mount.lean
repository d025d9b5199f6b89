import AeraRecovery.Lib.Pieces
import AeraRecovery.PcStorage.Bridge

namespace AeraRecovery.PcStorage

open Lib Bytes Storage

def kReadBlock : Nat := 4 * 1024 * 1024

inductive Node
  | file (content : Bytes)
  | folder
  deriving DecidableEq

/-- A plain file tree, by path. A command that it cannot execute gives `none`. -/
abbrev Tree := Bytes → Option Node

def below (folder path : Bytes) : Bool := (folder ++ [47]).isPrefixOf path

namespace Tree

variable (t : Tree) (path : Bytes)

def create (exclusive : Bool) : Option Tree :=
  match t path with
  | none => some (Function.update t path (some (.file [])))
  | some (.file _) => if exclusive then none else some t
  | some .folder => none

def alter (change : Bytes → Bytes) : Option Tree :=
  match t path with
  | some (.file content) => some (Function.update t path (some (.file (change content))))
  | some .folder | none => none

def write (offset : Nat) (data : Bytes) : Option Tree := t.alter path (pwrite · offset data)

def truncate (size : Nat) : Option Tree :=
  t.alter path fun content => content.take size ++ List.replicate (size - content.length) 0

def read (offset size : Nat) : Option Bytes :=
  match t path with
  | some (.file content) => some (content.slice offset size)
  | some .folder | none => none

def stat : Option Nat :=
  match t path with
  | some (.file content) => some content.length
  | some .folder => some 0
  | none => none

def moved (source target path : Bytes) : Option Node :=
  if path = target then t source
  else if below target path then t (source ++ path.drop target.length)
  else if path = source || below source path then none
  else t path

def rename (source target : Bytes) : Option Tree :=
  if source = target then if (t source).isSome then some t else none
  else if below source target || below target source then none
  else match t source, t target with
    | none, _ => none
    | some (.file _), some .folder => none
    | some .folder, some (.file _) => none
    | some (.file _), none | some (.file _), some (.file _) => some (t.moved source target)
    | some .folder, none | some .folder, some .folder => some (t.moved source target)

end Tree

/-- An empty string of libc++ holds 22 bytes without an allocation. -/
def emptyCapacity : Nat := 22

/-- An open file at its address. The peer reports no errors, so `error` stays 0. The capacity is that of the string with
the pending bytes. -/
structure OpenFile where
  address : Nat
  path : Bytes
  pending : Bytes := []
  readData : Bytes := []
  offset : Nat := 0
  readOffset : Nat := 0
  capacity : Nat := emptyCapacity

/-- The files of the peer, the open files in the order of their addresses, and the files as the calls made so far leave
them. -/
structure Mount where
  peer : Tree
  writers : List OpenFile := []
  tree : Tree

namespace Mount

variable (s : Mount)

def find (address : Nat) : Option OpenFile := s.writers.find? fun f => f.address = address

def modify (which : OpenFile → Bool) (change : OpenFile → OpenFile) : Mount :=
  { s with writers := s.writers.map fun f => if which f then change f else f }

def clearPending (f : OpenFile) : OpenFile := { f with pending := [] }

def clearReadData (f : OpenFile) : OpenFile := { f with readData := [] }

variable (address : Nat)

def flush : Option Mount :=
  match s.find address with
  | none => none
  | some f =>
    if f.pending = [] then some s
    else (s.peer.write f.path f.offset f.pending).map fun peer =>
      { s with peer := peer }.modify (fun f => f.address = address) clearPending

def flushAll (which : OpenFile → Bool) : Option Mount :=
  ((s.writers.filter which).map OpenFile.address).foldlM flush s

/-- `Attributes`: the size of the file with what is pending. -/
def attributes (path : Bytes) : Option Nat :=
  (s.peer.stat path).map fun size =>
    (s.writers.filter fun f => f.path = path && f.pending ≠ []).foldl
      (fun size f => max size (f.offset + f.pending.length)) size

def insertFile (file : OpenFile) (writers : List OpenFile) : List OpenFile :=
  writers.takeWhile (fun f => f.address < file.address) ++ file :: writers.dropWhile fun f => f.address < file.address

/-- `Open` of a file that has been looked up. The new object has an address of its own. -/
def openFile (path : Bytes) : Option Mount :=
  if s.writers.any fun f => f.address = address then none
  else match s.peer path with
    | some (.file _) => some { s with writers := insertFile { address := address, path := path } s.writers }
    | some .folder | none => none

def create (address : Nat) (path : Bytes) (exclusive : Bool) : Option Mount := do
  let peer ← s.peer.create path exclusive
  openFile { s with peer := peer, tree := (s.tree.create path exclusive).getD s.tree } address path

def read (address size offset : Nat) : Option (Bytes × Mount) := do
  let file ← s.find address
  let s ← s.flushAll fun f => f.path = file.path
  if file.readOffset ≤ offset ∧ offset < file.readOffset + file.readData.length then
    return ((file.readData.drop (offset - file.readOffset)).take size, s)
  else
    let data ← s.peer.read file.path offset kReadBlock
    let s := s.modify (fun f => f.address ≠ address) clearReadData
    return (data.take size,
      s.modify (fun f => f.address = address) fun f => { f with readData := data, readOffset := offset })

def evict : Option Mount := do
  let heavy := fun f : OpenFile => decide (f.address ≠ address) && decide (f.capacity > 1024)
  let s ← s.flushAll heavy
  return s.modify heavy fun f => { f with capacity := emptyCapacity }

def append (data : Bytes) (offset grown : Nat) (f : OpenFile) : OpenFile :=
  { f with
    offset := if f.pending = [] then offset else f.offset
    pending := f.pending ++ data
    capacity := max (max f.capacity grown) (f.pending.length + data.length) }

def makeRoom (address size : Nat) : Option Mount :=
  if (s.writers.map OpenFile.capacity).sum + size > 2 * kBlock then s.evict address else some s

/-- Send what is pending if the bytes do not follow it or do not fit behind it. -/
def breakBlock (file : OpenFile) (size offset : Nat) : Option Mount :=
  if file.pending ≠ [] ∧ (offset ≠ file.offset + file.pending.length ∨ size > kBlock - file.pending.length) then
    s.flush file.address
  else some s

def flushFull : Option Mount :=
  if (s.find address).any fun f => f.pending.length = kBlock then s.flush address else some s

/-- `Write`. The string that holds what is pending may grow to more than it needs. -/
def write (address : Nat) (data : Bytes) (offset grown : Nat) : Option Mount :=
  if data.length > kBlock then some s
  else do
    let file ← s.find address
    let s ← s.makeRoom address data.length
    let s := s.modify (fun f => f.path = file.path) clearReadData
    let s ← s.breakBlock file data.length offset
    let s := s.modify (fun f => f.address = address) (append data offset grown)
    { s with tree := (s.tree.write file.path offset data).getD s.tree }.flushFull address

def release : Option Mount := do
  let s ← s.flush address
  return { s with writers := s.writers.filter fun f => f.address ≠ address }

def truncate (path : Bytes) (size : Nat) : Option Mount := do
  let s ← s.flushAll fun f => f.path = path
  let s := s.modify (fun f => f.path = path) clearReadData
  let peer ← s.peer.truncate path size
  return { s with peer := peer, tree := (s.tree.truncate path size).getD s.tree }

def rename (source target : Bytes) : Option Mount :=
  if safePath target then do
    let s ← s.flushAll fun f => f.path = source || f.path = target
    let peer ← s.peer.rename source target
    let s := { s with peer := peer, tree := (s.tree.rename source target).getD s.tree }
    return s.modify (fun f => f.path = source) fun f => { f with path := target }
  else some s

end Mount

/-- The calls of a session that may write. `close` stands for `flush` and `fsync`. -/
inductive FileCall
  | create (address : Nat) (path : Bytes) (exclusive : Bool)
  | open (address : Nat) (path : Bytes)
  | read (address size offset : Nat)
  | write (address : Nat) (data : Bytes) (offset grown : Nat)
  | truncate (path : Bytes) (size : Nat)
  | rename (source target : Bytes)
  | getattr (path : Bytes)
  | close (address : Nat)
  | release (address : Nat)

def Mount.step (s : Mount) : FileCall → Option Mount
  | .create address path exclusive => s.create address path exclusive
  | .open address path => s.openFile address path
  | .read address size offset => (s.read address size offset).map Prod.snd
  | .write address data offset grown => s.write address data offset grown
  | .truncate path size => s.truncate path size
  | .rename source target => s.rename source target
  | .getattr path => (s.attributes path).map fun _ => s
  | .close address => s.flush address
  | .release address => s.release address

end AeraRecovery.PcStorage
