import AeraRecovery.Lib.Calls
import AeraRecovery.PcConnection.Pairing

namespace AeraRecovery.PcConnection

open Lib Bytes Commands FileSystem Calls Function List

/-! `pc_connection.cpp`: the removal of transfers of an earlier boot. Paths start at the storage root; the content of a
file comes with its number of links. No link is opened, since every `open` has `O_NOFOLLOW`. -/

abbrev Storage := Files Bytes (Bytes × Nat)

abbrev OnStorage := Command Empty (Machine Bytes (Bytes × Nat))

def isBootId (id : Bytes) : Bool :=
  id.length = 36 && id.zipIdx.all fun (c, i) =>
    if i = 8 || i = 13 || i = 18 || i = 23 then c = 45 else (48 ≤ c && c ≤ 57) || (97 ≤ c && c ≤ 102)

def transfers : List Bytes := [ascii "AERA", ascii "PCTransfers"]

def transfer (id : Bytes) : List Bytes := transfers ++ [id]

def marker : Bytes := ascii ".transfer.json"

def payloads : List Bytes := [ascii "payload.zip", ascii "payload.img", ascii "payload.aerap"]

def ownNames (payload : Bytes) : List Bytes := [marker, payload, payload ++ ascii ".part"]

section

variable (parseJson : Bytes → Option Json) (boot : Bytes)

variable (fails unread : Nat → Bool)

/-- A file that is not there counts as removed. -/
def discard (p : List Bytes) : OnStorage Bool := do
  let f ← files
  match f.entry p with
  | none => if ← fault fails then return false else return true
  | some .dir => return false
  | some (.file _) | some (.link _) | some .special => call fails (·.remove p)

end

section

variable (parseJson : Bytes → Option Json) (boot : Bytes) (fails unread : Nat → Bool) (f : Storage) (id payload : Bytes)

/-- `text` is a valid marker for `id` and `payload`, of another boot. -/
def Marked (text : Bytes) : Prop :=
  0 < text.length ∧ text.length ≤ 512 ∧ ∃ metadata old, parseJson text = some metadata ∧
    metadata.get (ascii "schema") = .integer 1 ∧ metadata.get (ascii "owner") = .string (ascii "AERA-PC-TRANSFER") ∧
    metadata.get (ascii "id") = .string id ∧ metadata.get (ascii "boot_id") = .string old ∧
    isBootId old = true ∧ old ≠ boot ∧ metadata.get (ascii "payload") = .string payload ∧ payload ∈ payloads

def Known (name : Bytes) : Prop :=
  name ∈ ownNames payload ∧ ∃ content, f.entry (transfer id ++ [name]) = some (.file (content, 1))

/-- Everything in the directory is known, if `readdir` does not fail. -/
structure Stale : Prop where
  marked : ∃ text, f.entry (transfer id ++ [marker]) = some (.file (text, 1)) ∧ Marked parseJson boot id payload text
  known : Quiet unread → ∀ name, f.entry (transfer id ++ [name]) ≠ none → Known f id payload name

def own : Set (List Bytes) := {q | q = transfer id ∨ ∃ name ∈ ownNames payload, q = transfer id ++ [name]}

/-- Nothing changes but that paths in `S` disappear. -/
def Loses (S : Set (List Bytes)) (f g : Storage) : Prop := ∀ q, g.entry q = f.entry q ∨ q ∈ S ∧ g.entry q = none

variable {parseJson boot fails unread f id payload} {g h : Storage} {S T : Set (List Bytes)} {p : List Bytes}
  {E : Empty → Storage → Prop}

theorem Loses.refl : Loses S f f := fun _ => .inl rfl

theorem Loses.trans (hfg : Loses S f g) (hgh : Loses T g h) (hT : T ⊆ S) : Loses S f h := by
  intro q
  rcases hgh q with hq | hq
  · rw [hq]
    exact hfg q
  · exact .inr ⟨hT hq.1, hq.2⟩

theorem Stale.congr (hs : Stale parseJson boot unread g id payload)
    (hentry : ∀ name, g.entry (transfer id ++ [name]) = f.entry (transfer id ++ [name])) :
    Stale parseJson boot unread f id payload := by
  obtain ⟨hmarked, hknown⟩ := hs
  simp only [Known, hentry] at hmarked hknown
  exact ⟨hmarked, hknown⟩

end

def shared : Storage :=
  .ofList [([ascii "AERA"], .dir), (transfers, .dir), (transfer (.replicate 64 48), .dir),
    (transfer (.replicate 64 48) ++ [marker], .file (ascii "\x7b\x7d", 1)),
    (transfer (.replicate 64 48) ++ [ascii "notes"], .file ([], 1))]

end AeraRecovery.PcConnection
