import AeraRecovery.Lib.Json
import AeraRecovery.Lib.Utf8

namespace AeraRecovery.Lib

open Utf8

namespace Json

/-- The values that a writer keeps which replaces what is not UTF-8: every string and every name is UTF-8, and the
integers are those of 64 bits. -/
inductive Printable : Json → Prop
  | null : Printable null
  | bool (b : Bool) : Printable (bool b)
  | integer {n : Int} (h : -2 ^ 63 ≤ n ∧ n < 2 ^ 64) : Printable (integer n)
  | real : Printable real
  | string {s : Bytes} (h : IsUtf8 s) : Printable (string s)
  | array {l : List Json} (h : ∀ v ∈ l, Printable v) : Printable (array l)
  | object {members : List (Bytes × Json)} (hnames : ∀ m ∈ members, IsUtf8 m.1)
      (hvalues : ∀ m ∈ members, Printable m.2) : Printable (object members)

namespace Printable

variable {value member : Json} {key : Bytes}

theorem empty : (Json.object []).Printable := .object nofun nofun

theorem cons {members : List (Bytes × Json)} (hkey : IsUtf8 key) (hmember : member.Printable)
    (h : (Json.object members).Printable) : (Json.object ((key, member) :: members)).Printable := by
  cases h with
  | object hnames hvalues =>
    exact .object (List.forall_mem_cons.mpr ⟨hkey, hnames⟩) (List.forall_mem_cons.mpr ⟨hmember, hvalues⟩)

theorem remove (h : value.Printable) : (value.remove key).Printable := by
  cases value with
  | object members =>
    cases h with
    | object hnames hvalues =>
      exact .object (fun m hm => hnames m (List.mem_filter.mp hm).1) fun m hm => hvalues m (List.mem_filter.mp hm).1
  | null | bool | integer | real | string | array => exact h

theorem set (h : value.Printable) (hkey : IsUtf8 key) (hmember : member.Printable) :
    (value.set key member).Printable := by
  cases value with
  | object members => exact .cons hkey hmember h.remove
  | null => exact .cons hkey hmember .empty
  | bool | integer | real | string | array => exact h

theorem find (h : value.Printable) (hfind : value.find key = some member) : IsUtf8 key ∧ member.Printable := by
  obtain ⟨m, hm, rfl⟩ := Option.map_eq_some_iff.mp hfind
  have hkey : m.1 = key := by simpa using List.find?_some hm
  have hmem := List.mem_of_find?_eq_some hm
  cases h with
  | object hnames hvalues => exact ⟨hkey ▸ hnames m hmem, hvalues m hmem⟩
  | null | bool | integer | real | string | array => cases hmem

theorem get (h : value.Printable) : (value.get key).Printable := by
  rw [Json.get]
  cases hfind : value.find key with
  | none => exact .null
  | some member => exact (h.find hfind).2

end Printable

end Json

/-- A JSON library: the text it writes, how long it is, and what it makes of a text. -/
class JsonText where
  Text : Type
  write : Json → Text
  parse : Text → Option Json
  length : Text → Nat
  parse_write : ∀ value, value.Printable → parse (write value) = some value
  length_pos : ∀ text value, parse text = some value → 0 < length text

end AeraRecovery.Lib
