import AeraRecovery.Lib.Hex
import AeraRecovery.Lib.JsonText

namespace AeraRecovery.Secrets

open Lib Bytes Utf8 Option

/-- What sealing takes from a device with a fixed serial: its properties, the key of each version, the nonce that
`RAND_bytes` gives at its `n`th call, and AES-GCM. -/
structure Device where
  serial : Bytes
  stable : Bool
  deviceKey : Nat → Bytes
  random : Nat → Option Bytes
  encrypt : Bytes → Bytes → Bytes → Option (Bytes × Bytes)
  decrypt : Bytes → Bytes → Bytes → Bytes → Option Bytes
  length_random : ∀ n nonce, random n = some nonce → nonce.length = 12
  length_tag : ∀ key nonce plain cipher tag, encrypt key nonce plain = some (cipher, tag) → tag.length = 16
  decrypt_encrypt : ∀ key nonce plain cipher tag, encrypt key nonce plain = some (cipher, tag) →
    decrypt key nonce cipher tag = some plain

def lower (c : UInt8) : UInt8 := if 65 ≤ c ∧ c ≤ 70 then c + 32 else c

/-- `Unhex`, which takes digits of either case. -/
def unhex (text : Bytes) : Option Bytes := Hex.unhex (text.map lower)

def sealedValue (serialOnly : Bool) (nonce cipher tag : Bytes) : Json :=
  .object ((if serialOnly then [(ascii "key_version", .integer 4)] else []) ++
    [(ascii "nonce", .string (Hex.hex nonce)), (ascii "data", .string (Hex.hex cipher)),
      (ascii "tag", .string (Hex.hex tag))])

namespace Device

variable (d : Device)

def keyVersion (serialOnly : Bool) : Nat := if serialOnly then 4 else if d.stable then 3 else 2

/-- `Seal`. -/
def sealText (serialOnly : Bool) (n : Nat) (plain : Bytes) : Option Json :=
  if serialOnly ∧ d.serial = [] then none
  else (d.random n).bind fun nonce =>
    (d.encrypt (d.deviceKey (d.keyVersion serialOnly)) nonce plain).map fun (cipher, tag) =>
      sealedValue serialOnly nonce cipher tag

def openWithKey (value : Json) (version : Nat) : Option Bytes :=
  if version = 4 ∧ d.serial = [] then none
  else if value.isObject ∧ (value.get (ascii "nonce")).isString ∧ (value.get (ascii "data")).isString ∧
      (value.get (ascii "tag")).isString then
    match unhex (value.get (ascii "nonce")).asString, unhex (value.get (ascii "data")).asString,
      unhex (value.get (ascii "tag")).asString with
    | some nonce, some cipher, some tag =>
      if nonce.length = 12 ∧ tag.length = 16 then d.decrypt (d.deviceKey version) nonce cipher tag else none
    | _, _, _ => none
  else none

/-- `Open`. The flag says that an older key was used. -/
def openText (serialOnly : Bool) (value : Json) : Option (Bytes × Bool) :=
  if serialOnly then
    if value.isObject then
      match value.find (ascii "key_version") with
      | some version => if version.isInt ∧ version.asInt = 4 then (d.openWithKey value 4).map (·, false) else none
      | none => ((d.openWithKey value 3).or (d.openWithKey value 2)).map (·, true)
    else none
  else if d.stable then ((d.openWithKey value 3).map (·, false)).or ((d.openWithKey value 2).map (·, true))
  else (d.openWithKey value 2).map (·, false)

end Device

theorem lower_digit : ∀ n < 16, lower (Hex.digit n) = Hex.digit n ∧ (Hex.digit n).toNat ≤ 127 := by decide

theorem lower_of_mem_hex {p : Bytes} {c : UInt8} (h : c ∈ Hex.hex p) : lower c = c ∧ c.toNat ≤ 127 := by
  obtain ⟨b, -, hc⟩ := List.mem_flatMap.mp h
  have hb := b.toNat_lt
  simp only [List.mem_cons, List.not_mem_nil, or_false] at hc
  rcases hc with rfl | rfl
  · exact lower_digit _ (by omega)
  · exact lower_digit _ (by omega)

theorem unhex_hex (p : Bytes) : unhex (Hex.hex p) = some p := by
  rw [unhex, List.map_congr_left fun c hc => (lower_of_mem_hex hc).1, List.map_id', Hex.unhex_hex]

theorem printable_hex (p : Bytes) : (Json.string (Hex.hex p)).Printable :=
  .string (isUtf8_of_ascii fun _ hc => (lower_of_mem_hex hc).2)

theorem printable_sealedValue (serialOnly : Bool) (nonce cipher tag : Bytes) :
    (sealedValue serialOnly nonce cipher tag).Printable := by
  have hfields : (Json.object [(ascii "nonce", .string (Hex.hex nonce)), (ascii "data", .string (Hex.hex cipher)),
      (ascii "tag", .string (Hex.hex tag))]).Printable :=
    .cons (isUtf8_of_ascii (by decide +kernel)) (printable_hex _) (.cons (isUtf8_of_ascii (by decide +kernel)) (printable_hex _)
      (.cons (isUtf8_of_ascii (by decide +kernel)) (printable_hex _) .empty))
  cases serialOnly with
  | false => exact hfields
  | true => exact .cons (isUtf8_of_ascii (by decide +kernel)) (.integer (by decide)) hfields

namespace Device

variable {d : Device} {serialOnly : Bool} {n : Nat} {plain : Bytes} {value : Json}

theorem sealText_eq_some (h : d.sealText serialOnly n plain = some value) :
    ¬ (serialOnly = true ∧ d.serial = []) ∧ ∃ nonce cipher tag, nonce.length = 12 ∧ tag.length = 16 ∧
      d.decrypt (d.deviceKey (d.keyVersion serialOnly)) nonce cipher tag = some plain ∧
        value = sealedValue serialOnly nonce cipher tag := by
  obtain ⟨hserial, h⟩ := ite_none_left_eq_some.mp h
  obtain ⟨nonce, hrandom, h⟩ := bind_eq_some_iff.mp h
  obtain ⟨⟨cipher, tag⟩, hencrypt, rfl⟩ := map_eq_some_iff.mp h
  exact ⟨hserial, nonce, cipher, tag, d.length_random n nonce hrandom, d.length_tag _ _ _ _ _ hencrypt,
    d.decrypt_encrypt _ _ _ _ _ hencrypt, rfl⟩

theorem printable_sealText (h : d.sealText serialOnly n plain = some value) : value.Printable := by
  obtain ⟨-, nonce, cipher, tag, -, -, -, rfl⟩ := sealText_eq_some h
  exact printable_sealedValue ..

theorem openWithKey_sealText (h : d.sealText serialOnly n plain = some value) :
    d.openWithKey value (d.keyVersion serialOnly) = some plain := by
  obtain ⟨hserial, nonce, cipher, tag, hnonce, htag, hdecrypt, rfl⟩ := sealText_eq_some h
  have hversion : ¬ (d.keyVersion serialOnly = 4 ∧ d.serial = []) := by
    rintro ⟨hversion, hempty⟩
    cases serialOnly with
    | true => exact hserial ⟨rfl, hempty⟩
    | false => cases hstable : d.stable <;> simp [keyVersion, hstable] at hversion
  have hfields : (sealedValue serialOnly nonce cipher tag).isObject = true ∧
      (sealedValue serialOnly nonce cipher tag).get (ascii "nonce") = .string (Hex.hex nonce) ∧
      (sealedValue serialOnly nonce cipher tag).get (ascii "data") = .string (Hex.hex cipher) ∧
      (sealedValue serialOnly nonce cipher tag).get (ascii "tag") = .string (Hex.hex tag) := by
    cases serialOnly <;> exact ⟨rfl, rfl, rfl, rfl⟩
  obtain ⟨hobject, hget, hget', hget''⟩ := hfields
  rw [openWithKey, if_neg hversion, hget, hget', hget'', if_pos ⟨hobject, rfl, rfl, rfl⟩]
  simp only [Json.asString, unhex_hex, hnonce, htag, and_self, if_true, hdecrypt]

/-- What was sealed is opened, and no older key is used for it. -/
theorem openText_sealText (h : d.sealText serialOnly n plain = some value) :
    d.openText serialOnly value = some (plain, false) := by
  have hopen := openWithKey_sealText h
  obtain ⟨-, nonce, cipher, tag, -, -, -, rfl⟩ := sealText_eq_some h
  cases serialOnly with
  | true =>
    rw [openText, if_pos rfl]
    exact congrArg (Option.map (·, false)) hopen
  | false => cases hstable : d.stable <;> simp_all [openText, keyVersion]

end Device

/-- A device whose AES-GCM leaves the text as it is and begins the tag with the key. -/
def sampleDevice : Device where
  serial := ascii "1"
  stable := true
  deviceKey version := [version.toUInt8]
  random _ := some (List.replicate 12 0)
  encrypt key _ plain := some (plain, (key ++ List.replicate 16 0).take 16)
  decrypt key _ cipher tag := if tag = (key ++ List.replicate 16 0).take 16 then some cipher else none
  length_random _ _ h := by
    cases h
    rfl
  length_tag key _ _ _ _ h := by
    cases h
    simp
  decrypt_encrypt _ _ _ _ _ h := by
    cases h
    exact if_pos rfl

end AeraRecovery.Secrets
