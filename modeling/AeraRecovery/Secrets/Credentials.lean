import AeraRecovery.Secrets.Wlan

namespace AeraRecovery.Secrets

open Lib Bytes Device Option Function Bool

inductive Slot
  | generic
  | smb
  | sftp
  deriving DecidableEq

def Slot.name : Slot → Bytes
  | generic => ascii "nas_password"
  | smb => ascii "nas_password_smb"
  | sftp => ascii "nas_password_sftp"

def slotOf (protocol : Bytes) : Option Slot :=
  if protocol = [] then some .generic
  else if protocol = ascii "smb" then some .smb
  else if protocol = ascii "sftp" then some .sftp
  else none

inductive Outcome
  | returns (okay : Bool)
  | writes (root : Json)
  | finds (password : Bytes) (root : Option Json)

section

variable (sealText : Bytes → Option Json) (openText : Json → Option (Bytes × Bool)) (root : Json) (slot : Slot)

def clearNasPassword : Outcome := .writes (root.remove slot.name)

def setNasPassword (password : Bytes) : Outcome :=
  if password = [] then clearNasPassword root slot
  else
    match sealText password with
    | none => .returns false
    | some sealed => .writes (root.set slot.name sealed)

def getNasPassword : Outcome :=
  match openText (root.get slot.name) with
  | none => .returns false
  | some (password, legacy) =>
    if password = [] then .returns false
    else .finds password (if legacy then (sealText password).map (root.set slot.name) else none)

def migrateNasPassword : Outcome :=
  if slot = .generic then .returns false
  else if (root.find Slot.generic.name).isNone then .returns true
  else if (root.find slot.name).isSome then .writes (root.remove Slot.generic.name)
  else
    match openText (root.get Slot.generic.name) with
    | none => .returns false
    | some (password, _) =>
      match sealText password with
      | none => .returns false
      | some sealed => .writes ((root.set slot.name sealed).remove Slot.generic.name)

end

inductive NasCall
  | set (password protocol : Bytes)
  | get (protocol : Bytes)
  | clear (protocol : Bytes)
  | migrate (protocol : Bytes)

def NasCall.protocol : NasCall → Bytes
  | set _ protocol | get protocol | clear protocol | migrate protocol => protocol

def NasCall.outcome (v : Device) (n : Nat) (root : Json) (slot : Slot) : NasCall → Outcome
  | set password _ => setNasPassword (v.sealText false n) root slot password
  | get _ => getNasPassword (v.sealText false n) (v.openText false) root slot
  | clear _ => clearNasPassword root slot
  | migrate _ => migrateNasPassword (v.sealText false n) (v.openText false) root slot

/-- What a call has returned, with the password of `GetNasPassword`. -/
structure Answer where
  okay : Bool
  found : Option Bytes := none

/-- `WriteDocument` replaces the whole document, or nothing. -/
def writeTo (written : Bool) (old root : Json) : Json := if written then root.set (ascii "schema") kSchema else old

def Outcome.finish (written : Bool) (old : Json) : Outcome → Answer × Json
  | returns okay => (⟨okay, none⟩, old)
  | writes root => (⟨written, none⟩, writeTo written old root)
  | finds password root => (⟨true, some password⟩, root.elim old (writeTo written old))

def nasStep (v : Device) (n : Nat) (root : Json) (call : NasCall) (written : Bool) : Answer × Json :=
  match slotOf call.protocol with
  | none => (⟨false, none⟩, root)
  | some slot => (call.outcome v n root slot).finish written root

/-- What a slot holds, if it holds anything. A value that cannot be opened is `some none`. -/
abbrev Slots := Slot → Option (Option Bytes)

def slots (v : Device) (root : Json) : Slots := fun slot =>
  (root.find slot.name).map fun value => (v.openText false value).map Prod.fst

/-- The map in memory: how a call changes it, and the password that a call finds. -/
def Slots.apply (m : Slots) (slot : Slot) : NasCall → Slots
  | .set password _ => update m slot (if password = [] then none else some (some password))
  | .clear _ => update m slot none
  | .get _ => m
  | .migrate _ =>
    if m .generic = none then m
    else update (if m slot = none then update m slot (m .generic) else m) .generic none

def Slots.found (m : Slots) (slot : Slot) : NasCall → Option Bytes
  | .get _ => (m slot).join.filter (· ≠ [])
  | .set .. | .clear _ | .migrate _ => none

section

variable {v : Device} {n : Nat} {root : Json}

variable {slot : Slot}

theorem name_inj {other : Slot} : slot.name = other.name ↔ slot = other := by
  cases slot <;> cases other <;> decide

theorem slots_set {plain : Bytes} {value : Json} (slot : Slot) (hroot : root.isObject = true)
    (h : v.sealText false n plain = some value) :
    slots v (root.set slot.name value) = update (slots v root) slot (some (some plain)) := by
  refine eq_update_iff.mpr ⟨?_, fun other hother => ?_⟩
  · rw [slots, Json.find_set_self (.inl hroot), map_some, openText_sealText h, map_some]
  · rw [slots, slots, Json.find_set_of_ne (mt name_inj.mp hother)]

theorem slots_remove (root : Json) (slot : Slot) :
    slots v (root.remove slot.name) = update (slots v root) slot none := by
  refine eq_update_iff.mpr ⟨?_, fun other hother => ?_⟩
  · rw [slots, Json.find_remove_self, map_none]
  · rw [slots, slots, Json.find_remove_of_ne (mt name_inj.mp hother)]

theorem slots_writeTo (written : Bool) {old : Json} (hroot : root.isObject = true) (hold : old.isObject = true) :
    (writeTo written old root).isObject = true ∧
      slots v (writeTo written old root) = if written then slots v root else slots v old := by
  cases written with
  | false => exact ⟨hold, rfl⟩
  | true =>
    refine ⟨Json.isObject_set (.inl hroot), funext fun slot => ?_⟩
    have hname : slot.name ≠ ascii "schema" := by cases slot <;> decide
    simp only [writeTo, if_true, slots, Json.find_set_of_ne hname]

theorem slots_eq_none : slots v root slot = none ↔ root.find slot.name = none := map_eq_none_iff

theorem slots_of_openText {opened : Bytes × Bool} (h : v.openText false (root.get slot.name) = some opened) :
    slots v root slot = some (some opened.1) := by
  cases hfind : root.find slot.name with
  | none => simp [Json.get, hfind, openText, openWithKey, Json.isObject] at h
  | some value =>
    rw [Json.get, hfind, getD_some] at h
    rw [slots, hfind, map_some, h, map_some]

variable (slot : Slot)

theorem join_slots : (slots v root slot).join = (v.openText false (root.get slot.name)).map Prod.fst := by
  cases hopen : v.openText false (root.get slot.name) with
  | some opened => rw [slots_of_openText hopen]; rfl
  | none => cases hfind : root.find slot.name <;> simp_all [slots, Json.get]

/-- An outcome that takes the document to what the map holds after the call. -/
def Outcome.Fits (v : Device) (root : Json) (m : Slots) : Outcome → Prop
  | returns okay => okay = true → m = slots v root
  | writes new => new.isObject = true ∧ slots v new = m
  | finds _ new => m = slots v root ∧ ∀ r ∈ new, r.isObject = true ∧ slots v r = m

theorem Outcome.Fits.finish {m : Slots} {o : Outcome} (written : Bool) (h : o.Fits v root m)
    (hroot : root.isObject = true) : (o.finish written root).2.isObject = true ∧
      slots v (o.finish written root).2 = if (o.finish written root).1.okay then m else slots v root := by
  cases o with
  | returns okay =>
    cases okay with
    | false => exact ⟨hroot, rfl⟩
    | true => exact ⟨hroot, (h rfl).symm⟩
  | writes new =>
    rw [← h.2]
    exact slots_writeTo written h.1 hroot
  | finds password new =>
    cases new with
    | none => exact ⟨hroot, h.1.symm⟩
    | some r =>
      obtain ⟨hobject, hslots⟩ := slots_writeTo (v := v) written (h.2 r rfl).1 hroot
      rw [(h.2 r rfl).2, h.1, ite_self, ← h.1] at hslots
      exact ⟨hobject, hslots⟩

theorem fits_set (password protocol : Bytes) (hroot : root.isObject = true) :
    (setNasPassword (v.sealText false n) root slot password).Fits v root
      ((slots v root).apply slot (.set password protocol)) := by
  rw [setNasPassword, Slots.apply]
  split_ifs
  · exact ⟨Json.isObject_remove.trans hroot, slots_remove root slot⟩
  · cases hsealed : v.sealText false n password with
    | none => exact Bool.noConfusion
    | some sealed => exact ⟨Json.isObject_set (.inl hroot), slots_set slot hroot hsealed⟩

theorem fits_get (hroot : root.isObject = true) :
    (getNasPassword (v.sealText false n) (v.openText false) root slot).Fits v root (slots v root) := by
  rw [getNasPassword]
  cases hopen : v.openText false (root.get slot.name) with
  | none => exact Bool.noConfusion
  | some opened =>
    by_cases hempty : opened.1 = []
    · simp [hempty, Outcome.Fits]
    · simp only [hempty, if_false]
      refine ⟨rfl, fun r hr => ?_⟩
      split_ifs at hr
      · obtain ⟨sealed, hsealed, rfl⟩ := map_eq_some_iff.mp hr
        refine ⟨Json.isObject_set (.inl hroot), ?_⟩
        rw [slots_set slot hroot hsealed, ← slots_of_openText hopen, update_eq_self]
      · cases hr

theorem fits_migrate (protocol : Bytes) (hroot : root.isObject = true) :
    (migrateNasPassword (v.sealText false n) (v.openText false) root slot).Fits v root
      ((slots v root).apply slot (.migrate protocol)) := by
  rw [migrateNasPassword, Slots.apply]
  by_cases hslot : slot = .generic
  · rw [if_pos hslot]
    exact Bool.noConfusion
  rw [if_neg hslot]
  by_cases hgeneric : root.find Slot.generic.name = none
  · rw [hgeneric, if_pos (slots_eq_none.mpr hgeneric)]
    exact fun _ => rfl
  rw [if_neg (mt isNone_iff_eq_none.mp hgeneric), if_neg (mt slots_eq_none.mp hgeneric)]
  by_cases hfree : root.find slot.name = none
  · rw [hfree, if_pos (slots_eq_none.mpr hfree)]
    cases hopen : v.openText false (root.get Slot.generic.name) with
    | none => exact Bool.noConfusion
    | some opened =>
      cases hsealed : v.sealText false n opened.1 with
      | none => simp [hsealed, Outcome.Fits]
      | some sealed =>
        simp only [isSome_none, false_eq_true, if_false, hsealed]
        refine ⟨Json.isObject_remove.trans (Json.isObject_set (.inl hroot)), ?_⟩
        rw [slots_remove, slots_set slot hroot hsealed, slots_of_openText hopen]
  · rw [if_pos (isSome_iff_ne_none.mpr hfree), if_neg (mt slots_eq_none.mp hfree)]
    exact ⟨Json.isObject_remove.trans hroot, slots_remove root .generic⟩

theorem fits_outcome (call : NasCall) (slot : Slot) (hroot : root.isObject = true) :
    (call.outcome v n root slot).Fits v root ((slots v root).apply slot call) := by
  cases call with
  | set password protocol => exact fits_set slot password protocol hroot
  | get protocol => exact fits_get slot hroot
  | clear protocol => exact ⟨Json.isObject_remove.trans hroot, slots_remove root slot⟩
  | migrate protocol => exact fits_migrate slot protocol hroot

theorem found_outcome (call : NasCall) (slot : Slot) (written : Bool) :
    ((call.outcome v n root slot).finish written root).1.found = (slots v root).found slot call := by
  cases call with
  | get protocol =>
    rw [NasCall.outcome, getNasPassword, Slots.found, join_slots]
    cases v.openText false (root.get slot.name) with
    | none => rfl
    | some opened => by_cases hempty : opened.1 = [] <;> simp [hempty, Option.filter, Outcome.finish]
  | clear protocol => rfl
  | set password protocol =>
    rw [NasCall.outcome, setNasPassword]
    split_ifs
    · rfl
    · cases v.sealText false n password <;> rfl
  | migrate protocol =>
    rw [NasCall.outcome, migrateNasPassword]
    split_ifs
    all_goals try rfl
    cases v.openText false (root.get Slot.generic.name) with
    | none => rfl
    | some opened => cases hsealed : v.sealText false n opened.1 <;> simp [hsealed, Outcome.finish, Slots.found]

end

/-- What the calls have returned, and the document after them. The number is a nonce for each call. -/
def nasRun (v : Device) (root : Json) : List (NasCall × Nat × Bool) → List (NasCall × Answer) × Json
  | [] => ([], root)
  | (call, n, written) :: calls =>
    let r := nasStep v n root call written
    let rest := nasRun v r.2 calls
    ((call, r.1) :: rest.1, rest.2)

def Slots.next (m : Slots) (event : NasCall × Answer) : Slots :=
  if event.2.okay then (slotOf event.1.protocol).elim m (m.apply · event.1) else m

def Slots.Follows (m : Slots) : List (NasCall × Answer) → Prop
  | [] => True
  | event :: events =>
    event.2.found = ((slotOf event.1.protocol).bind (m.found · event.1)) ∧ (m.next event).Follows events

theorem nasStep_refines (v : Device) (n : Nat) {root : Json} (call : NasCall) (written : Bool)
    (hroot : root.isObject = true) : let r := nasStep v n root call written
    r.2.isObject = true ∧ r.1.found = ((slotOf call.protocol).bind ((slots v root).found · call)) ∧
      slots v r.2 = (slots v root).next (call, r.1) := by
  cases hslot : slotOf call.protocol with
  | none => simp [nasStep, Slots.next, hslot, hroot]
  | some slot =>
    obtain ⟨hobject, hslots⟩ := (fits_outcome (n := n) (v := v) call slot hroot).finish written hroot
    simp only [nasStep, Slots.next, hslot, bind_some, elim_some]
    exact ⟨hobject, found_outcome call slot written, hslots⟩

/-- Every sequence of calls does to the document what it does to a map in memory, and finds what the map holds. -/
theorem nas_refines (v : Device) (root : Json) (calls : List (NasCall × Nat × Bool)) (h : documentValid root = true) :
    (slots v root).Follows (nasRun v root calls).1 ∧
      slots v (nasRun v root calls).2 = (nasRun v root calls).1.foldl Slots.next (slots v root) := by
  have hobject : root.isObject = true := by
    simp only [documentValid, and_eq_true] at h
    exact h.1.1
  clear h
  induction calls generalizing root with
  | nil => exact ⟨trivial, rfl⟩
  | cons c calls ih =>
    obtain ⟨hobject', hfound, hslots⟩ := nasStep_refines v c.2.1 c.1 c.2.2 hobject
    obtain ⟨hfollows, hrest⟩ := ih _ hobject'
    rw [hslots] at hfollows hrest
    exact ⟨⟨hfound, hfollows⟩, hrest⟩

def sampleCredentials : Json :=
  .object [(ascii "schema", kSchema),
    (ascii "nas_password", sealedValue false (List.replicate 12 0) (ascii "old") (2 :: List.replicate 15 0))]

def sampleCalls : List (NasCall × Nat × Bool) :=
  [(.get [], 0, true), (.migrate (ascii "smb"), 1, true), (.get (ascii "smb"), 2, false), (.get [], 3, true)]

theorem nas_refines_migrated : (nasRun sampleDevice sampleCredentials sampleCalls).1.map (·.2.found) =
        [some (ascii "old"), none, some (ascii "old"), none] ∧
      (slots sampleDevice sampleCredentials).Follows (nasRun sampleDevice sampleCredentials sampleCalls).1 :=
  ⟨by decide +kernel, (nas_refines sampleDevice sampleCredentials sampleCalls (by decide)).1⟩

end AeraRecovery.Secrets
