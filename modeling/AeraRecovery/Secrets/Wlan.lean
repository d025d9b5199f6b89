import AeraRecovery.Secrets.Seal

namespace AeraRecovery.Secrets

open Lib Bytes Utf8 Function

def kWifiPath : Bytes := ascii "/data/media/0/AERA/wifi.json"

def kSchema : Json := .integer 2

def kMaximumDocument : Nat := 1024 * 1024

structure IpConfig where
  manual : Bool := false
  address : Bytes := []
  gateway : Bytes := []
  dns1 : Bytes := []
  dns2 : Bytes := []
  prefixLength : Int := 24

structure WlanSession where
  autoEnable : Bool := false
  autoConnect : Bool := false
  lastSsid : Bytes := []

def emptyDocument : Json := .object [(ascii "schema", kSchema)]

def documentValid (root : Json) : Bool := root.isObject && (root.get (ascii "schema")).isInt &&
  (root.get (ascii "schema")).asInt = 2

def networks (root : Json) : Json := root.get (ascii "networks")

def ipConfigs (root : Json) : Json := root.get (ascii "ip_configs")

def networksOrEmpty (root : Json) : Json := if (networks root).isObject then networks root else .object []

def cacheValid (cache : Json) : Bool :=
  (cache.get (ascii "auto_enable")).isBool && (cache.get (ascii "auto_connect")).isBool &&
    (cache.get (ascii "last_ssid")).isString

def securityOr (security : Bytes) : Bytes := if security = [] then ascii "WPA2" else security

/-- What `GetWlanNetwork` finds in an entry: the password, the security and whether an older key was used. -/
def readNetwork (device : Device) (network : Json) : Option (Bytes × Bytes × Bool) :=
  if network.isObject && (network.find (ascii "security")).all Json.isString then
    let security := ((network.find (ascii "security")).map Json.asString).getD (ascii "WPA2")
    (device.openText true (network.get (ascii "password"))).map fun (password, legacy) => (password, security, legacy)
  else none

def loadable (cache : Json) : Bool :=
  cacheValid cache && (networks cache).isObject && ((cache.get (ascii "last_ssid")).asString.length ≤ 32) &&
    (networks cache).members.all fun (ssid, network) =>
      ssid ≠ [] && ssid.length ≤ 32 && network.isObject && (network.get (ascii "security")).isString &&
        (network.get (ascii "password")).isObject

def ipEntry (config : IpConfig) : Json :=
  .object [(ascii "manual", .bool config.manual), (ascii "prefix", .integer config.prefixLength),
    (ascii "address", .string config.address), (ascii "gateway", .string config.gateway),
    (ascii "dns1", .string config.dns1), (ascii "dns2", .string config.dns2)]

/-- What `GetWlanIpConfig` finds for an entry. Without one the network uses DHCP. -/
def readIpConfig (validateIpConfig : IpConfig → Bool) (entry : Json) : Option IpConfig :=
  if entry.isNull then some {}
  else if entry.isObject && (entry.get (ascii "manual")).isBool && (entry.get (ascii "prefix")).isInt &&
      ["address", "gateway", "dns1", "dns2"].all fun key => (entry.get (ascii key)).isString then
    let config : IpConfig :=
      { manual := (entry.get (ascii "manual")).asBool
        address := (entry.get (ascii "address")).asString
        gateway := (entry.get (ascii "gateway")).asString
        dns1 := (entry.get (ascii "dns1")).asString
        dns2 := (entry.get (ascii "dns2")).asString
        prefixLength := (entry.get (ascii "prefix")).asInt }
    if validateIpConfig config then some config else none
  else none

inductive Label
  | loadEarlyWlan (path : Bytes)
  | saveEarlyWlan (path : Bytes) (session : WlanSession)
  | usePrimaryWlan (connected : Bytes)
  | setWlanNetwork (ssid password security : Bytes)
  | deleteWlanNetwork (ssid : Bytes)
  | setWlanIpConfig (ssid : Bytes) (config : IpConfig)
  | getWlanNetwork (ssid : Bytes)
  | getWlanIpConfig (ssid : Bytes)
  | listWlanNetworks

/-- The texts of a call that go into a document are UTF-8, and its numbers those of the writer. -/
def Label.Printable : Label → Prop
  | saveEarlyWlan _ session => IsUtf8 session.lastSsid
  | setWlanNetwork ssid _ security => IsUtf8 ssid ∧ IsUtf8 security
  | setWlanIpConfig ssid config => IsUtf8 ssid ∧ (ipEntry config).Printable
  | loadEarlyWlan _ | usePrimaryWlan _ | deleteWlanNetwork _ | getWlanNetwork _ | getWlanIpConfig _
  | listWlanNetworks => True

def Label.ssid : Label → Option Bytes
  | setWlanNetwork ssid _ _ | deleteWlanNetwork ssid | setWlanIpConfig ssid _ | getWlanNetwork ssid
  | getWlanIpConfig ssid => some ssid
  | loadEarlyWlan _ | saveEarlyWlan _ _ | usePrimaryWlan _ | listWlanNetworks => none

inductive Change
  | set (password security : Bytes)
  | deleted

variable [JsonText]

structure Store where
  files : Bytes → Option JsonText.Text
  early : Json := .null
  earlyPath : Bytes := []
  nonces : Nat := 0

/-- `ReadDocument`. What is no regular file that can be read has no text. -/
def readDocument (files : Bytes → Option JsonText.Text) (path : Bytes) : Json :=
  match files path with
  | some text =>
    if JsonText.length text = 0 ∨ kMaximumDocument < JsonText.length text then emptyDocument
    else
      match JsonText.parse text with
      | some root => if documentValid root then root else emptyDocument
      | none => emptyDocument
  | none => emptyDocument

/-- `WriteDocument`, all of whose calls of the system succeed; `none` when the text is too long. Whatever had the name
of its temporary file is gone. -/
def writeDocument (files : Bytes → Option JsonText.Text) (path : Bytes) (root : Json) :
    Option (Bytes → Option JsonText.Text) :=
  let text := JsonText.write (root.set (ascii "schema") kSchema)
  if kMaximumDocument < JsonText.length text then none
  else some (update (update files (path ++ ascii ".new") none) path (some text))

namespace Store

variable (s : Store)

def read (path : Bytes) : Json := readDocument s.files path

def write (path : Bytes) (root : Json) : Option Store :=
  (writeDocument s.files path root).map fun files => { s with files := files }

def current : Json := if s.early.isObject then s.early else s.read kWifiPath

def refreshEarlyWlanNetworks (primary : Json) : Store :=
  if s.earlyPath = [] then s
  else
    let cache := s.read s.earlyPath
    if cacheValid cache then
      (s.write s.earlyPath ((cache.set (ascii "networks") (networksOrEmpty primary)).set (ascii "ip_configs")
        (ipConfigs primary))).getD s
    else s

/-- The end of a call that changes the primary document: it is written, and then the early networks. -/
def commit (root : Json) : Bool × Store :=
  match s.write kWifiPath root with
  | none => (false, s)
  | some s => (true, s.refreshEarlyWlanNetworks root)

end Store

section

variable (device : Device) (validateIpConfig : IpConfig → Bool) (s : Store)

def setWlanNetwork (ssid password security : Bytes) : Bool × Store :=
  if ssid = [] then (false, s)
  else
    let root := s.read kWifiPath
    match device.sealText true s.nonces password with
    | none => (false, s)
    | some sealed =>
      let network := Json.object [(ascii "security", .string (securityOr security)), (ascii "password", sealed)]
      let root := root.set (ascii "networks") ((networks root).set ssid network)
      ({ s with nonces := s.nonces + 1 }).commit root

variable (ssid : Bytes)

/-- An entry with an older key in the primary document is sealed again. -/
def getWlanNetwork : Option (Bytes × Bytes) × Store :=
  if ssid = [] then (none, s)
  else
    let root := s.current
    let network := (networks root).get ssid
    match readNetwork device network with
    | none => (none, s)
    | some (password, security, legacy) =>
      if !s.early.isObject && legacy then
        match device.sealText true s.nonces password with
        | none => (some (password, security), s)
        | some sealed =>
          let network := network.set (ascii "password") sealed
          let s := { s with nonces := s.nonces + 1 }
          (some (password, security),
            (s.write kWifiPath (root.set (ascii "networks") ((networks root).set ssid network))).getD s)
      else (some (password, security), s)

def deleteWlanNetwork : Bool × Store :=
  if ssid = [] then (false, s)
  else
    let root := s.read kWifiPath
    let root := if (ipConfigs root).isObject then root.set (ascii "ip_configs") ((ipConfigs root).remove ssid) else root
    let root := if (networks root).isObject && ((networks root).find ssid).isSome then
        root.set (ascii "networks") ((networks root).remove ssid)
      else root
    s.commit root

def listWlanNetworks : List Bytes :=
  ((networks s.current).names.filter fun ssid => ssid ≠ []).mergeSort fun a b => decide (a ≤ b)

def loadEarlyWlan (path : Bytes) : Option WlanSession × Store :=
  let cache := s.read path
  if loadable cache then
    (some ⟨(cache.get (ascii "auto_enable")).asBool, (cache.get (ascii "auto_connect")).asBool,
      (cache.get (ascii "last_ssid")).asString⟩, { s with early := cache, earlyPath := path })
  else (none, { s with early := .null })

def saveEarlyWlan (path : Bytes) (session : WlanSession) : Bool × Store :=
  let primary := s.read kWifiPath
  let cache := emptyDocument.set (ascii "networks") (networksOrEmpty primary)
  let cache := cache.set (ascii "ip_configs") (ipConfigs primary)
  let cache := cache.set (ascii "auto_enable") (.bool session.autoEnable)
  let cache := cache.set (ascii "auto_connect") (.bool session.autoConnect)
  let cache := cache.set (ascii "last_ssid") (.string session.lastSsid)
  match s.write path cache with
  | none => (false, s)
  | some s => (true, { s with earlyPath := path })

/-- The answer says that what was connected with is not what the primary document says. -/
def usePrimaryWlan (connected : Bytes) : Bool × Store :=
  let primary := s.read kWifiPath
  let before := (networks s.early).get connected
  let after := (networks primary).get connected
  let changed := s.early.isObject && connected ≠ [] &&
    (!before.isObject || !after.isObject || before.get (ascii "security") != after.get (ascii "security") ||
      (ipConfigs s.early).get connected != (ipConfigs primary).get connected ||
      match device.openText true (before.get (ascii "password")), device.openText true (after.get (ascii "password")) with
      | some (old, _), some (new, _) => old != new
      | some _, none | none, some _ | none, none => true)
  (changed, { s with early := .null })

def getWlanIpConfig : Option IpConfig :=
  let configs := ipConfigs s.current
  if configs.isNull then some {}
  else if configs.isObject then readIpConfig validateIpConfig (configs.get ssid)
  else none

def setWlanIpConfig (config : IpConfig) : Bool × Store :=
  if ssid = [] || ssid.length > 32 || !validateIpConfig config || s.early.isObject then (false, s)
  else
    let root := s.read kWifiPath
    let configs := if (ipConfigs root).isObject then ipConfigs root else .object []
    let root := root.set (ascii "ip_configs") (configs.set ssid (ipEntry config))
    s.commit root

end

structure System extends Store where
  last : Bytes → Option Change := fun _ => none

def next (device : Device) (validateIpConfig : IpConfig → Bool) (s : System) : Label → System
  | .loadEarlyWlan path => { s with toStore := (loadEarlyWlan s.toStore path).2 }
  | .saveEarlyWlan path session => { s with toStore := (saveEarlyWlan s.toStore path session).2 }
  | .usePrimaryWlan connected => { s with toStore := (usePrimaryWlan device s.toStore connected).2 }
  | .setWlanNetwork ssid password security =>
    let r := setWlanNetwork device s.toStore ssid password security
    { s with
      toStore := r.2
      last := if r.1 then update s.last ssid (some (.set password (securityOr security))) else s.last }
  | .deleteWlanNetwork ssid =>
    let r := deleteWlanNetwork s.toStore ssid
    { s with toStore := r.2, last := if r.1 then update s.last ssid (some .deleted) else s.last }
  | .setWlanIpConfig ssid config => { s with toStore := (setWlanIpConfig validateIpConfig s.toStore ssid config).2 }
  | .getWlanNetwork ssid => { s with toStore := (getWlanNetwork device s.toStore ssid).2 }
  | .getWlanIpConfig _ | .listWlanNetworks => s

def step (device : Device) (validateIpConfig : IpConfig → Bool) (s : System) (l : Label) : Option System :=
  some (next device validateIpConfig s l)

end AeraRecovery.Secrets
