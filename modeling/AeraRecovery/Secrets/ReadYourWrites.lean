import AeraRecovery.Lib.Steps
import AeraRecovery.Secrets.Wlan

namespace AeraRecovery.Secrets

open Lib Bytes Utf8 Steps Option Function

def Readable (root : Json) : Prop :=
  ((networks root).isObject = true ∨ networks root = .null) ∧ ((ipConfigs root).isObject = true ∨ ipConfigs root = .null)

theorem kWifiPath_ne_temporary (path : Bytes) : kWifiPath ≠ path ++ ascii ".new" :=
  append_ne_append (p := []) (b := 110) (c := 119) (by decide) (by decide) (by decide)

section

variable {root value : Json}

theorem networks_set (h : root.isObject = true) : networks (root.set (ascii "networks") value) = value :=
  Json.get_set_self (.inl h)

theorem ipConfigs_set (h : root.isObject = true) : ipConfigs (root.set (ascii "ip_configs") value) = value :=
  Json.get_set_self (.inl h)

theorem networks_set_of_ne {key : Bytes} (h : ascii "networks" ≠ key) : networks (root.set key value) = networks root :=
  Json.get_set_of_ne h

theorem ipConfigs_set_of_ne {key : Bytes} (h : ascii "ip_configs" ≠ key) :
    ipConfigs (root.set key value) = ipConfigs root :=
  Json.get_set_of_ne h

theorem find_orEmpty (x : Bytes) : (if value.isObject = true then value else .object []).find x = value.find x := by
  cases value <;> rfl

theorem isObject_orEmpty : (if value.isObject = true then value else .object []).isObject = true := by
  cases value <;> rfl

theorem printable_orEmpty (h : value.Printable) : (if value.isObject = true then value else .object []).Printable := by
  split_ifs
  · exact h
  · exact .empty

/-- The names of a document's own members. -/
theorem isUtf8_key (key : String) (hkey : key ∈ ["schema", "networks", "ip_configs", "auto_enable", "auto_connect",
    "last_ssid", "security", "password"] := by simp) : IsUtf8 (ascii key) := by
  refine isUtf8_of_ascii ?_
  revert key
  decide +kernel

theorem printable_schema : kSchema.Printable := .integer (by decide)

theorem printable_emptyDocument : emptyDocument.Printable := .cons (isUtf8_key "schema") printable_schema .empty

end

/-- A document after a call about `y`: what it has for other networks is as before. -/
structure Edits (y : Option Bytes) (r r' : Json) : Prop where
  isObject : r'.isObject = true
  printable : r'.Printable
  networks : ∀ x, some x ≠ y → (networks r').find x = (networks r).find x
  ipConfigs : ∀ x, some x ≠ y → (ipConfigs r').find x = (ipConfigs r).find x
  readable : Readable r → Readable r'

section

variable {root cache value r r' : Json} {y : Option Bytes} {ssid : Bytes}

theorem Edits.refl (hobject : r.isObject = true) (hr : r.Printable) : Edits y r r :=
  ⟨hobject, hr, fun _ _ => rfl, fun _ _ => rfl, fun h => h⟩

theorem Edits.trans (h : Edits y root r) (h' : Edits y r r') : Edits y root r' :=
  ⟨h'.isObject, h'.printable, fun x hx => (h'.networks x hx).trans (h.networks x hx),
    fun x hx => (h'.ipConfigs x hx).trans (h.ipConfigs x hx), fun hr => h'.readable (h.readable hr)⟩

theorem Edits.of_none (h : Edits none r r') : Edits y r r' :=
  ⟨h.isObject, h.printable, fun x _ => h.networks x nofun, fun x _ => h.ipConfigs x nofun, h.readable⟩

theorem Edits.set (h : Edits y root r) (key : String) (hkey : key ∈ ["schema", "auto_enable", "auto_connect", "last_ssid"])
    (hvalue : value.Printable) : Edits y root (r.set (ascii key) value) := by
  have hne : ascii "networks" ≠ ascii key ∧ ascii "ip_configs" ≠ ascii key := by
    revert key
    decide +kernel
  refine h.trans ⟨Json.isObject_set (.inl h.isObject), h.printable.set (isUtf8_key key ?_) hvalue, fun x _ => ?_,
    fun x _ => ?_, fun hr => ?_⟩
  · revert key
    decide +kernel
  · rw [networks_set_of_ne hne.1]
  · rw [ipConfigs_set_of_ne hne.2]
  · rwa [Readable, networks_set_of_ne hne.1, ipConfigs_set_of_ne hne.2]

theorem edits_networks (hobject : r.isObject = true) (hr : r.Printable) (hvalue : value.Printable)
    (hfind : ∀ x, some x ≠ y → value.find x = (networks r).find x) (hread : Readable r → value.isObject = true) :
    Edits y r (r.set (ascii "networks") value) := by
  have hip : ipConfigs (r.set (ascii "networks") value) = ipConfigs r := ipConfigs_set_of_ne (by decide)
  refine ⟨Json.isObject_set (.inl hobject), hr.set (isUtf8_key "networks") hvalue, fun x hx => ?_,
    fun x _ => by rw [hip], fun h => ?_⟩
  · rw [networks_set hobject, hfind x hx]
  · rw [Readable, networks_set hobject, hip]
    exact ⟨.inl (hread h), h.2⟩

theorem edits_ipConfigs (hobject : r.isObject = true) (hr : r.Printable) (hvalue : value.Printable)
    (hfind : ∀ x, some x ≠ y → value.find x = (ipConfigs r).find x) (hread : value.isObject = true) :
    Edits y r (r.set (ascii "ip_configs") value) := by
  have hnetworks : networks (r.set (ascii "ip_configs") value) = networks r := networks_set_of_ne (by decide)
  refine ⟨Json.isObject_set (.inl hobject), hr.set (isUtf8_key "ip_configs") hvalue,
    fun x _ => by rw [hnetworks], fun x hx => ?_, fun h => ?_⟩
  · rw [ipConfigs_set hobject, hfind x hx]
  · rw [Readable, hnetworks, ipConfigs_set hobject]
    exact ⟨h.1, .inl hread⟩

theorem edits_cache (hobject : cache.isObject = true) (hcache : cache.Printable) (hroot : root.Printable) :
    Edits none root ((cache.set (ascii "networks") (networksOrEmpty root)).set (ascii "ip_configs") (ipConfigs root)) := by
  have hfirst : (cache.set (ascii "networks") (networksOrEmpty root)).isObject = true := Json.isObject_set (.inl hobject)
  have hnetworks : networks ((cache.set (ascii "networks") (networksOrEmpty root)).set (ascii "ip_configs")
      (ipConfigs root)) = networksOrEmpty root := by
    rw [networks_set_of_ne (by decide), networks_set hobject]
  constructor
  · exact Json.isObject_set (.inl hfirst)
  · exact (hcache.set (isUtf8_key "networks") (printable_orEmpty hroot.get)).set
      (isUtf8_key "ip_configs") hroot.get
  · intro x _
    rw [hnetworks]
    exact find_orEmpty x
  · intro x _
    rw [ipConfigs_set hfirst]
  · intro hr
    rw [Readable, hnetworks, ipConfigs_set hfirst]
    exact ⟨.inl isObject_orEmpty, hr.2⟩

/-- The document with an entry for the network. -/
def withNetwork (root : Json) (ssid : Bytes) (network : Json) : Json :=
  root.set (ascii "networks") ((networks root).set ssid network)

theorem edits_withNetwork (hobject : root.isObject = true) (hroot : root.Printable) (hssid : IsUtf8 ssid)
    (hvalue : value.Printable) : Edits (some ssid) root (withNetwork root ssid value) :=
  edits_networks hobject hroot (hroot.get.set hssid hvalue)
    (fun _ hx => Json.find_set_of_ne fun heq => hx (congrArg some heq)) fun hr => Json.isObject_set hr.1

theorem find_withNetwork (hobject : root.isObject = true) (hreadable : Readable root) :
    (networks (withNetwork root ssid value)).find ssid = some value := by
  rw [withNetwork, networks_set hobject, Json.find_set_self hreadable.1]

/-- What a document has for a network: nothing, an entry that cannot be opened, or its password and security. -/
def entry (device : Device) (root : Json) (x : Bytes) : Option (Option (Bytes × Bytes)) :=
  ((networks root).find x).map fun network => (readNetwork device network).map fun (password, security, _) =>
    (password, security)

variable {device : Device} {password security : Bytes}

theorem entry_congr {x : Bytes} (h : (networks r').find x = (networks r).find x) : entry device r' x = entry device r x := by
  rw [entry, entry, h]

theorem entry_of_find {x : Bytes} {network : Json} {legacy : Bool} (hfind : (networks r).find x = some network)
    (hread : readNetwork device network = some (password, security, legacy)) :
    entry device r x = some (some (password, security)) := by
  rw [entry, hfind, map_some, hread, map_some]

theorem readNetwork_set {n : Nat} (h : device.sealText true n password = some value) :
    readNetwork device (.object [(ascii "security", .string security), (ascii "password", value)]) =
      some (password, security, false) := by
  have hpassword : (Json.object [(ascii "security", .string security), (ascii "password", value)]).get
      (ascii "password") = value := rfl
  rw [readNetwork, hpassword, Device.openText_sealText h]
  rfl

theorem readNetwork_resealed {n : Nat} {network : Json} {legacy : Bool}
    (hread : readNetwork device network = some (password, security, legacy)) (h : device.sealText true n password = some value) :
    readNetwork device (network.set (ascii "password") value) = some (password, security, false) := by
  obtain ⟨hvalid, hread⟩ := ite_none_right_eq_some.mp hread
  rw [Bool.and_eq_true] at hvalid
  obtain ⟨⟨plain, older⟩, -, hfound⟩ := map_eq_some_iff.mp hread
  rw [readNetwork, Json.isObject_set (.inl hvalid.1), Json.find_set_of_ne (by decide), hvalid.2,
    Json.get_set_self (.inl hvalid.1), Device.openText_sealText h]
  cases hfound
  rfl

/-- What a document has for a network after its last change. -/
def Holds (x : Bytes) (found : Option (Option (Bytes × Bytes))) : Change → Prop
  | .set password security => x ≠ [] ∧ found = some (some (password, security))
  | .deleted => found = none

def Agrees (device : Device) (root : Json) (last : Bytes → Option Change) : Prop :=
  ∀ x change, last x = some change → Holds x (entry device root x) change

variable {last : Bytes → Option Change}

theorem Agrees.of_entry (h : Agrees device r last)
    (hentry : ∀ x, last x ≠ none → entry device r' x = entry device r x) : Agrees device r' last := by
  intro x change hlast
  rw [hentry x (by simp [hlast])]
  exact h x change hlast

theorem Agrees.update {change : Change} (h : Agrees device r last)
    (hother : ∀ x, x ≠ ssid → entry device r' x = entry device r x) (hssid : Holds ssid (entry device r' ssid) change) :
    Agrees device r' (update last ssid (some change)) := by
  intro x change' hlast
  by_cases hx : x = ssid
  · rw [hx, update_self] at hlast
    rwa [hx, ← some.inj hlast]
  · rw [update_of_ne hx] at hlast
    rw [hother x hx]
    exact h x change' hlast

end

section Runs

variable [JsonText]

/-- Every document that can be read is one that the writer keeps. -/
def Clean (s : Store) : Prop := ∀ path, (s.read path).Printable

section

variable {s t : Store} {root : Json} {path : Bytes}

theorem isObject_read (s : Store) (path : Bytes) : (s.read path).isObject = true := by
  rw [Store.read, readDocument]
  repeat' split
  all_goals first | rfl | simp_all [documentValid]

theorem read_congr (h : t.files = s.files) (path : Bytes) : t.read path = s.read path := by
  rw [Store.read, h, Store.read]

theorem current_eq (h : ¬ s.early.isObject = true) : s.current = s.read kWifiPath := if_neg h

theorem write_spec (hobject : root.isObject = true) (hroot : root.Printable) (h : s.write path root = some t) :
    t.early = s.early ∧ Edits none root (t.read path) ∧
      (kWifiPath ≠ path → t.read kWifiPath = s.read kWifiPath) ∧ (Clean s → Clean t) := by
  obtain ⟨files, hfiles, rfl⟩ := map_eq_some_iff.mp h
  obtain ⟨hlength, hupdate⟩ := ite_none_left_eq_some.mp hfiles
  replace hupdate (p : Bytes) := congrFun (some.inj hupdate) p
  have hedit : Edits none root (root.set (ascii "schema") kSchema) :=
    (Edits.refl hobject hroot).set "schema" (by simp) printable_schema
  have hself : readDocument files path = root.set (ascii "schema") kSchema := by
    have hparse := JsonText.parse_write _ hedit.printable
    have hpos := JsonText.length_pos _ _ hparse
    rw [readDocument, ← hupdate, update_self]
    dsimp only
    rw [if_neg (by omega), hparse]
    refine if_pos ?_
    rw [documentValid, hedit.isObject, Json.get_set_self (.inl hobject)]
    rfl
  have hother {p : Bytes} (hp : p ≠ path) (hnew : p ≠ path ++ ascii ".new") : readDocument files p = s.read p := by
    rw [readDocument, ← hupdate, update_of_ne hp, update_of_ne hnew, Store.read, readDocument]
  refine ⟨rfl, (congrArg (Edits none root) hself).mpr hedit, fun hne => hother hne (kWifiPath_ne_temporary path), fun hs p => ?_⟩
  change (readDocument files p).Printable
  by_cases hp : p = path
  · rw [hp, hself]
    exact hedit.printable
  by_cases hnew : p = path ++ ascii ".new"
  · rw [readDocument, ← hupdate, update_of_ne hp, hnew, update_self]
    exact printable_emptyDocument
  · rw [hother hp hnew]
    exact hs p

theorem refresh_spec (hs : Clean s) (hroot : root.Printable) (h : Edits none root (s.read kWifiPath)) :
    (s.refreshEarlyWlanNetworks root).early = s.early ∧ Clean (s.refreshEarlyWlanNetworks root) ∧
      Edits none root ((s.refreshEarlyWlanNetworks root).read kWifiPath) := by
  rw [Store.refreshEarlyWlanNetworks]
  dsimp only
  split_ifs with hpath hvalid
  · exact ⟨rfl, hs, h⟩
  · have hcache := edits_cache (isObject_read s s.earlyPath) (hs s.earlyPath) hroot
    cases hwrite : s.write s.earlyPath (((s.read s.earlyPath).set (ascii "networks") (networksOrEmpty root)).set
        (ascii "ip_configs") (ipConfigs root)) with
    | none => exact ⟨rfl, hs, h⟩
    | some t =>
      obtain ⟨hearly, hwritten, hother, hclean⟩ := write_spec hcache.isObject hcache.printable hwrite
      refine ⟨hearly, hclean hs, ?_⟩
      by_cases hsame : kWifiPath = s.earlyPath
      · rw [getD_some, hsame]
        exact hcache.trans hwritten
      · rw [getD_some, hother hsame]
        exact h
  · exact ⟨rfl, hs, h⟩

end

/-- A call about `y` leaves everything else as it is. -/
structure Moves (s s' : Store) (y : Option Bytes) : Prop where
  early : s'.early = s.early
  primary : Edits y (s.read kWifiPath) (s'.read kWifiPath)
  clean : Clean s'

/-- A call with its answer: it is refused and the document is as before, or the change is made. -/
structure Changes (device : Device) (s : Store) (r : Bool × Store) (ssid : Bytes) (change : Change) : Prop where
  moves : Moves s r.2 (some ssid)
  refused : r.1 = false → r.2.read kWifiPath = s.read kWifiPath
  done : r.1 = true → Holds ssid (entry device (r.2.read kWifiPath) ssid) change

section

variable {device : Device} {validateIpConfig : IpConfig → Bool} {s s' : Store} {root : Json} {y : Option Bytes}
  {ssid password security : Bytes}

theorem Moves.refl (hs : Clean s) : Moves s s y := ⟨rfl, .refl (isObject_read s _) (hs _), hs⟩

theorem Changes.refl {change : Change} (hs : Clean s) : Changes device s (false, s) ssid change :=
  ⟨.refl hs, fun _ => rfl, nofun⟩

/-- A call that ends with writing this document: either it was written, or nothing has changed. -/
theorem moves_commit (hs : Clean s) (h : Edits y (s.read kWifiPath) root) :
    Moves s (s.commit root).2 y ∧ ((s.commit root).1 = false → (s.commit root).2.read kWifiPath = s.read kWifiPath) ∧
      ((s.commit root).1 = true → Edits none root ((s.commit root).2.read kWifiPath)) := by
  rw [Store.commit]
  cases hwrite : s.write kWifiPath root with
  | none => exact ⟨.refl hs, fun _ => rfl, nofun⟩
  | some t =>
    obtain ⟨hearly, hwritten, -, hclean⟩ := write_spec h.isObject h.printable hwrite
    obtain ⟨hearly', hclean', hsame⟩ := refresh_spec (hclean hs) h.printable hwritten
    exact ⟨⟨hearly'.trans hearly, h.trans hsame.of_none, hclean'⟩, nofun, fun _ => hsame⟩

theorem setWlanNetwork_spec (device : Device) (password : Bytes) (hs : Clean s) (hssid : IsUtf8 ssid)
    (hsecurity : IsUtf8 security) (hreadable : Readable (s.read kWifiPath)) :
    Changes device s (setWlanNetwork device s ssid password security) ssid (.set password (securityOr security)) := by
  rw [setWlanNetwork]
  split_ifs with hempty
  · exact .refl hs
  dsimp only
  cases hseal : device.sealText true s.nonces password with
  | none => exact .refl hs
  | some value =>
    have hobject := isObject_read s kWifiPath
    have hor : IsUtf8 (securityOr security) := by
      rw [securityOr]
      split_ifs
      · exact isUtf8_of_ascii (by decide +kernel)
      · exact hsecurity
    have hnetwork : (Json.object [(ascii "security", .string (securityOr security)), (ascii "password", value)]).Printable :=
      .cons (isUtf8_key "security") (.string hor)
        (.cons (isUtf8_key "password") (Device.printable_sealText hseal) .empty)
    obtain ⟨hmoves, hsame, hwritten⟩ := moves_commit (s := { s with nonces := s.nonces + 1 }) hs
      (edits_withNetwork hobject (hs kWifiPath) hssid hnetwork)
    refine ⟨⟨hmoves.early, hmoves.primary, hmoves.clean⟩, hsame, fun hokay => ⟨hempty, ?_⟩⟩
    exact entry_of_find (((hwritten hokay).networks ssid nofun).trans (find_withNetwork hobject hreadable))
      (readNetwork_set hseal)

theorem getWlanNetwork_fst :
    (getWlanNetwork device s ssid).1 = if ssid = [] then none else (entry device s.current ssid).join := by
  have hentry : (entry device s.current ssid).join =
      (readNetwork device ((networks s.current).get ssid)).map fun (password, security, _) => (password, security) := by
    rw [entry, Json.get]
    cases (networks s.current).find ssid <;> rfl
  rw [getWlanNetwork, hentry]
  split_ifs
  · rfl
  · dsimp only
    cases readNetwork device ((networks s.current).get ssid) with
    | none => rfl
    | some found =>
      dsimp only
      split_ifs
      · cases device.sealText true s.nonces found.1 <;> rfl
      · rfl

/-- An entry that is sealed again has the same password and security as before. -/
theorem reseal_spec {t : Store} {n m : Nat} {legacy : Bool} {value : Json} (hs : Clean s)
    (hreadable : Readable (s.read kWifiPath))
    (hread : readNetwork device ((networks (s.read kWifiPath)).get ssid) = some (password, security, legacy))
    (hseal : device.sealText true n password = some value)
    (hwrite : ({ s with nonces := m } : Store).write kWifiPath (withNetwork (s.read kWifiPath) ssid
      (((networks (s.read kWifiPath)).get ssid).set (ascii "password") value)) = some t) :
    Moves s t (some ssid) ∧ entry device (t.read kWifiPath) ssid = entry device (s.read kWifiPath) ssid := by
  have hobject := isObject_read s kWifiPath
  cases hfind : (networks (s.read kWifiPath)).find ssid with
  | none =>
    rw [Json.get, hfind] at hread
    cases hread
  | some old =>
    have hget : (networks (s.read kWifiPath)).get ssid = old := by rw [Json.get, hfind, getD_some]
    rw [hget] at hread hwrite
    obtain ⟨hssid, hold⟩ := Json.Printable.find (hs kWifiPath).get hfind
    have hedit := edits_withNetwork hobject (hs kWifiPath) hssid
      (hold.set (isUtf8_key "password") (Device.printable_sealText hseal))
    obtain ⟨hearly, hwritten, -, hclean⟩ := write_spec hedit.isObject hedit.printable hwrite
    refine ⟨⟨hearly, hedit.trans hwritten.of_none, hclean hs⟩, ?_⟩
    rw [entry_of_find hfind hread]
    exact entry_of_find ((hwritten.networks ssid (some_ne_none ssid)).trans (find_withNetwork hobject hreadable))
      (readNetwork_resealed hread hseal)

theorem getWlanNetwork_spec (device : Device) (ssid : Bytes) (hs : Clean s) (hreadable : Readable (s.read kWifiPath)) :
    ((getWlanNetwork device s ssid).2.files = s.files ∧ (getWlanNetwork device s ssid).2.early = s.early) ∨
      (Moves s (getWlanNetwork device s ssid).2 (some ssid) ∧
        entry device ((getWlanNetwork device s ssid).2.read kWifiPath) ssid = entry device (s.read kWifiPath) ssid) := by
  rw [getWlanNetwork]
  split_ifs with hssid
  · exact .inl ⟨rfl, rfl⟩
  dsimp only
  cases hread : readNetwork device ((networks s.current).get ssid) with
  | none => exact .inl ⟨rfl, rfl⟩
  | some found =>
    obtain ⟨password, security, legacy⟩ := found
    dsimp only
    split_ifs with hlegacy
    · cases hseal : device.sealText true s.nonces password with
      | none => exact .inl ⟨rfl, rfl⟩
      | some value =>
        rw [current_eq fun h => by simp [h] at hlegacy] at hread ⊢
        dsimp only
        rw [← withNetwork]
        cases hwrite : ({ s with nonces := s.nonces + 1 } : Store).write kWifiPath (withNetwork (s.read kWifiPath) ssid
            (((networks (s.read kWifiPath)).get ssid).set (ascii "password") value)) with
        | none => exact .inl ⟨rfl, rfl⟩
        | some t => exact .inr (reseal_spec hs hreadable hread hseal hwrite)
    · exact .inl ⟨rfl, rfl⟩

theorem deleteWlanNetwork_spec (device : Device) (ssid : Bytes) (hs : Clean s) :
    Changes device s (deleteWlanNetwork s ssid) ssid .deleted := by
  rw [deleteWlanNetwork]
  split_ifs with hssid
  · exact .refl hs
  dsimp only
  generalize hfirst : (if (ipConfigs (s.read kWifiPath)).isObject = true then
    (s.read kWifiPath).set (ascii "ip_configs") ((ipConfigs (s.read kWifiPath)).remove ssid)
      else s.read kWifiPath) = first
  have hconfig : Edits (some ssid) (s.read kWifiPath) first := by
    rw [← hfirst]
    split_ifs with hip
    · refine edits_ipConfigs (isObject_read s _) (hs _) (hs _).get.remove (fun x hx => ?_) ?_
      · exact Json.find_remove_of_ne fun heq => hx (congrArg some heq)
      · rwa [Json.isObject_remove]
    · exact .refl (isObject_read s _) (hs _)
  generalize hroot : (if ((networks first).isObject && ((networks first).find ssid).isSome) = true then
    first.set (ascii "networks") ((networks first).remove ssid) else first) = root
  have hnetwork : Edits (some ssid) first root ∧ (networks root).find ssid = none := by
    rw [← hroot]
    split_ifs with hnetworks
    · refine ⟨edits_networks hconfig.isObject hconfig.printable hconfig.printable.get.remove (fun x hx => ?_) fun _ => ?_, ?_⟩
      · exact Json.find_remove_of_ne fun heq => hx (congrArg some heq)
      · rw [Json.isObject_remove]
        exact ((Bool.and_eq_true _ _).mp hnetworks).1
      · rw [networks_set hconfig.isObject, Json.find_remove_self]
    · refine ⟨.refl hconfig.isObject hconfig.printable, ?_⟩
      cases hvalue : networks first with
      | object members =>
        rw [hvalue, Bool.and_eq_true, not_and, not_isSome_iff_eq_none] at hnetworks
        exact hnetworks rfl
      | null | bool | integer | real | string | array => rfl
  obtain ⟨hmoves, hsame, hwritten⟩ := moves_commit hs (hconfig.trans hnetwork.1)
  refine ⟨hmoves, hsame, fun hokay => ?_⟩
  rw [Holds, entry, (hwritten hokay).networks ssid nofun, hnetwork.2, map_none]

theorem setWlanIpConfig_spec {config : IpConfig} (validateIpConfig : IpConfig → Bool) (hs : Clean s) (hssid : IsUtf8 ssid)
    (hconfig : (ipEntry config).Printable) : Moves s (setWlanIpConfig validateIpConfig s ssid config).2 (some ssid) ∧
      ∀ x, (networks ((setWlanIpConfig validateIpConfig s ssid config).2.read kWifiPath)).find x =
        (networks (s.read kWifiPath)).find x := by
  rw [setWlanIpConfig]
  split_ifs
  · exact ⟨.refl hs, fun _ => rfl⟩
  dsimp only
  generalize hroot : (s.read kWifiPath).set (ascii "ip_configs") ((if (ipConfigs (s.read kWifiPath)).isObject = true then
    ipConfigs (s.read kWifiPath) else .object []).set ssid (ipEntry config)) = root
  have hedit : Edits (some ssid) (s.read kWifiPath) root := by
    rw [← hroot]
    refine edits_ipConfigs (isObject_read s _) (hs _) ((printable_orEmpty (hs _).get).set hssid hconfig) (fun x hx => ?_)
      (Json.isObject_set (.inl isObject_orEmpty))
    rw [Json.find_set_of_ne fun heq => hx (congrArg some heq), find_orEmpty]
  obtain ⟨hmoves, hsame, hwritten⟩ := moves_commit hs hedit
  refine ⟨hmoves, fun x => ?_⟩
  cases hokay : (s.commit root).1 with
  | false => rw [hsame hokay]
  | true => rw [(hwritten hokay).networks x nofun, ← hroot, networks_set_of_ne (by decide)]

theorem saveEarlyWlan_spec {path : Bytes} {session : WlanSession} (hs : Clean s) (hlast : IsUtf8 session.lastSsid) :
    Moves s (saveEarlyWlan s path session).2 none := by
  have hcache := edits_cache (show emptyDocument.isObject = true from rfl) printable_emptyDocument (hs kWifiPath)
  have hsaved := ((hcache.set "auto_enable" (by simp) (.bool session.autoEnable)).set "auto_connect" (by simp)
    (.bool session.autoConnect)).set "last_ssid" (by simp) (.string hlast)
  rw [saveEarlyWlan]
  split
  · exact .refl hs
  · rename_i t hwrite
    obtain ⟨hearly, hwritten, hother, hclean⟩ := write_spec hsaved.isObject hsaved.printable hwrite
    refine ⟨hearly, ?_, hclean hs⟩
    change Edits none _ (t.read kWifiPath)
    by_cases hpath : kWifiPath = path
    · rw [← hpath] at hwritten
      exact hsaved.trans hwritten
    · rw [hother hpath]
      exact .refl (isObject_read s _) (hs _)

end

/-- The password and the security that `GetWlanNetwork` returns. -/
def System.network (s : System) (device : Device) (x : Bytes) : Option (Bytes × Bytes) := (getWlanNetwork device s.toStore x).1

/-- No network is set or deleted while the early networks are in use. Early networks are loaded only from a file that has
the same entries as the primary document for the networks set or deleted so far. -/
def Fresh (device : Device) (s : System) : Label → Prop
  | .setWlanNetwork _ _ _ | .deleteWlanNetwork _ => s.early.isObject = false
  | .loadEarlyWlan path => loadable (s.read path) = true → ∀ x, s.last x ≠ none →
    entry device (s.read path) x = entry device (s.read kWifiPath) x
  | .saveEarlyWlan _ _ | .usePrimaryWlan _ | .setWlanIpConfig _ _ | .getWlanNetwork _ | .getWlanIpConfig _
  | .listWlanNetworks => True

section

variable {device : Device} {validateIpConfig : IpConfig → Bool} {s s' : System} {l : Label}

variable {x : Bytes}

theorem mem_listWlanNetworks {s : Store} :
    x ∈ listWlanNetworks s ↔ x ≠ [] ∧ ((networks s.current).find x).isSome = true := by
  rw [listWlanNetworks, List.mem_mergeSort, List.mem_filter, Json.mem_names, decide_eq_true_eq, and_comm]

/-- Both documents that may be read from say what the last changes were. -/
structure Current (device : Device) (s : System) : Prop where
  clean : Clean s.toStore
  readable : Readable (s.read kWifiPath)
  primary : Agrees device (s.read kWifiPath) s.last
  early : s.early.isObject = true → Agrees device s.early s.last

theorem Current.of_moves {t : Store} {y : Option Bytes} (h : Current device s) (hmoves : Moves s.toStore t y)
    (hentry : ∀ x, entry device (t.read kWifiPath) x = entry device (s.read kWifiPath) x) :
    Current device { s with toStore := t } := by
  refine ⟨hmoves.clean, hmoves.primary.readable h.readable, h.primary.of_entry fun x _ => hentry x, ?_⟩
  rw [hmoves.early]
  exact h.early

variable {ssid : Bytes}

theorem Current.get (h : Current device s) :
    Current device { s with toStore := (getWlanNetwork device s.toStore ssid).2 } := by
  rcases getWlanNetwork_spec device ssid h.clean h.readable with ⟨hfiles, hearly⟩ | ⟨hmoves, hentry⟩
  · have hreads := read_congr hfiles
    refine ⟨fun path => hreads path ▸ h.clean path, hreads kWifiPath ▸ h.readable, ?_, ?_⟩
    · exact h.primary.of_entry fun x _ => congrArg (fun root => entry device root x) (hreads kWifiPath)
    · rw [hearly]
      exact h.early
  · refine h.of_moves hmoves fun x => ?_
    by_cases hx : x = ssid
    · rw [hx, hentry]
    · exact entry_congr (hmoves.primary.networks x fun heq => hx (some.inj heq))

theorem Current.change {r : Bool × Store} {change : Change} (h : Current device s) (hearly : s.early.isObject = false)
    (hchange : Changes device s.toStore r ssid change) : Current device
      { s with toStore := r.2, last := if r.1 then update s.last ssid (some change) else s.last } := by
  cases hokay : r.1 with
  | false => exact h.of_moves hchange.moves fun x => congrArg (fun root => entry device root x) (hchange.refused hokay)
  | true =>
    refine ⟨hchange.moves.clean, hchange.moves.primary.readable h.readable, ?_, fun hobject => ?_⟩
    · refine h.primary.update (fun x hx => ?_) (hchange.done hokay)
      exact entry_congr (hchange.moves.primary.networks x fun heq => hx (some.inj heq))
    · rw [hchange.moves.early, hearly] at hobject
      cases hobject

theorem Current.next (h : Current device s) (hl : l.Printable) (hfresh : Fresh device s l) :
    Current device (next device validateIpConfig s l) := by
  cases l with
  | getWlanIpConfig | listWlanNetworks => exact h
  | usePrimaryWlan => exact ⟨h.clean, h.readable, h.primary, nofun⟩
  | loadEarlyWlan path =>
    rw [Secrets.next, loadEarlyWlan]
    split_ifs with hload
    · exact ⟨h.clean, h.readable, h.primary, fun _ => h.primary.of_entry (hfresh hload)⟩
    · exact ⟨h.clean, h.readable, h.primary, nofun⟩
  | saveEarlyWlan path session =>
    have hmoves : Moves s.toStore (saveEarlyWlan s.toStore path session).2 none := saveEarlyWlan_spec h.clean hl
    exact h.of_moves hmoves fun x => entry_congr (hmoves.primary.networks x nofun)
  | setWlanIpConfig ssid config =>
    obtain ⟨hmoves, hfind⟩ := setWlanIpConfig_spec validateIpConfig h.clean hl.1 hl.2
    exact h.of_moves hmoves fun x => entry_congr (hfind x)
  | getWlanNetwork ssid => exact h.get
  | setWlanNetwork ssid password security =>
    exact h.change hfresh (setWlanNetwork_spec device password h.clean hl.1 hl.2 h.readable)
  | deleteWlanNetwork ssid => exact h.change hfresh (deleteWlanNetwork_spec device ssid h.clean)

theorem Current.reads (h : Current device s) (x : Bytes) :
    (∀ password security, s.last x = some (.set password security) → s.network device x = some (password, security)) ∧
      (s.last x = some .deleted → s.network device x = none ∧ x ∉ listWlanNetworks s.toStore) := by
  have hagrees : Agrees device s.current s.last := by
    rw [Store.current]
    split_ifs with hearly
    · exact h.early hearly
    · exact h.primary
  constructor
  · intro password security hlast
    obtain ⟨hx, hentry⟩ := hagrees x _ hlast
    rw [System.network, getWlanNetwork_fst, if_neg hx, hentry]
    rfl
  · intro hlast
    have hentry : entry device s.current x = none := hagrees x _ hlast
    constructor
    · rw [System.network, getWlanNetwork_fst, hentry]
      split_ifs <;> rfl
    · rw [mem_listWlanNetworks, map_eq_none_iff.mp hentry]
      exact fun hlisted => Bool.false_ne_true hlisted.2

end

end Runs

/-- The text of a document is the document. -/
local instance : JsonText where
  Text := Json
  write := id
  parse := some
  length _ := 1
  parse_write _ _ := rfl
  length_pos _ _ _ := Nat.one_pos

end AeraRecovery.Secrets
