import AeraRecovery.Lib.Bytes

namespace AeraRecovery.Lib

/-- A JSON value. `real` stands for every number that is not an integer, and no function reads which it is. -/
inductive Json
  | null
  | bool (b : Bool)
  | integer (n : Int)
  | real
  | string (s : Bytes)
  | array (l : List Json)
  | object (members : List (Bytes × Json))
  deriving BEq

namespace Json

def isObject : Json → Bool
  | object _ => true
  | null | bool _ | integer _ | real | string _ | array _ => false

def members : Json → List (Bytes × Json)
  | object members => members
  | null | bool _ | integer _ | real | string _ | array _ => []

variable (value : Json)

def names : List Bytes := value.members.map Prod.fst

def find (value : Json) (key : Bytes) : Option Json := (value.members.find? fun m => m.1 = key).map Prod.snd

def get (key : Bytes) : Json := (value.find key).getD null

def set (key : Bytes) (member : Json) : Json :=
  match value with
  | object members => object ((key, member) :: members.filter fun m => m.1 ≠ key)
  | null => object [(key, member)]
  | bool _ | integer _ | real | string _ | array _ => value

def remove (key : Bytes) : Json :=
  match value with
  | object members => object (members.filter fun m => m.1 ≠ key)
  | null | bool _ | integer _ | real | string _ | array _ => value

def isNull : Json → Bool
  | null => true
  | bool _ | integer _ | real | string _ | array _ | object _ => false

def isBool : Json → Bool
  | bool _ => true
  | null | integer _ | real | string _ | array _ | object _ => false

def isString : Json → Bool
  | string _ => true
  | null | bool _ | integer _ | real | array _ | object _ => false

def inRange (low high : Int) : Json → Bool
  | integer n => low ≤ n && n < high
  | null | bool _ | real | string _ | array _ | object _ => false

def isInt : Json → Bool := inRange (-2 ^ 31) (2 ^ 31)

def isInt64 : Json → Bool := inRange (-2 ^ 63) (2 ^ 63)

def asInt : Json → Int
  | integer n => n
  | null | bool _ | real | string _ | array _ | object _ => 0

def asBool : Json → Bool
  | bool b => b
  | null | integer _ | real | string _ | array _ | object _ => false

def asString : Json → Bytes
  | string s => s
  | null | bool _ | integer _ | real | array _ | object _ => []

variable {value member : Json} {key other : Bytes}

theorem isObject_iff : value.isObject = true ↔ ∃ members, value = object members := by
  cases value with
  | object members => exact ⟨fun _ => ⟨members, rfl⟩, fun _ => rfl⟩
  | null | bool | integer | real | string | array => exact ⟨nofun, nofun⟩

theorem find?_filter_ne {members : List (Bytes × Json)} (h : other ≠ key) :
    (members.filter fun m => m.1 ≠ key).find? (fun m => m.1 = other) = members.find? fun m => m.1 = other := by
  rw [List.find?_filter]
  congr 1
  funext m
  by_cases hm : m.1 = other
  · simp [hm, h]
  · simp [hm]

theorem find_set_self (h : value.isObject = true ∨ value = null) : (value.set key member).find key = some member := by
  rcases h with h | rfl
  · obtain ⟨members, rfl⟩ := isObject_iff.mp h
    simp [set, find, Json.members]
  · simp [set, find, Json.members]

theorem find_set_of_ne (h : other ≠ key) : (value.set key member).find other = value.find other := by
  cases value with
  | object members =>
    rw [set, find, Json.members, List.find?_cons_of_neg (by simpa using h.symm), find?_filter_ne h]
    rfl
  | null =>
    rw [set, find, Json.members, List.find?_cons_of_neg (by simpa using h.symm)]
    rfl
  | bool | integer | real | string | array => rfl

theorem find_remove_self : (value.remove key).find key = none := by
  cases value with
  | object members => simp [remove, find, Json.members]
  | null | bool | integer | real | string | array => rfl

theorem find_remove_of_ne (h : other ≠ key) : (value.remove key).find other = value.find other := by
  cases value with
  | object members =>
    rw [remove, find, Json.members, find?_filter_ne h]
    rfl
  | null | bool | integer | real | string | array => rfl

theorem get_set_self (h : value.isObject = true ∨ value = null) : (value.set key member).get key = member := by
  rw [get, find_set_self h, Option.getD_some]

theorem get_set_of_ne (h : other ≠ key) : (value.set key member).get other = value.get other := by
  rw [get, get, find_set_of_ne h]

theorem isObject_set (h : value.isObject = true ∨ value = null) : (value.set key member).isObject = true := by
  rcases h with h | rfl
  · obtain ⟨members, rfl⟩ := isObject_iff.mp h
    rfl
  · rfl

theorem isObject_remove : (value.remove key).isObject = value.isObject := by cases value <;> rfl

theorem mem_names : key ∈ value.names ↔ (value.find key).isSome = true := by
  rw [names, find, Option.isSome_map, List.find?_isSome, List.mem_map]
  simp only [decide_eq_true_eq, Prod.exists, exists_and_right, exists_eq_right]

end Json

end AeraRecovery.Lib
