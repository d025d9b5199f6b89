import AeraRecovery.ImageZip.Writer
import AeraRecovery.Lib.LittleEndian
import AeraRecovery.Lib.SortedMap
import AeraRecovery.Lib.Text
import AeraRecovery.Payload.Extraction

namespace AeraRecovery.ImageZip

open Lib Bytes Checks Crc32 Text

def kMaxImage : Nat := 2 ^ 40

def isBlank (c : UInt8) : Bool := c = 32 || c = 9 || c = 13 || c = 10

def trim (s : Bytes) : Bytes := (s.dropWhile isBlank).rdropWhile isBlank

structure Entry where
  method : UInt16
  crc32 : UInt32
  compressedLength : UInt64
  uncompressedLength : UInt64
  offset : Int64
  gpbf : UInt16
  unixMode : UInt32
  deriving DecidableEq

def Entry.encrypted (e : Entry) : Bool := e.gpbf &&& 1 ≠ 0

def Entry.irregular (e : Entry) : Bool := e.unixMode &&& 0xf000 ≠ 0 && e.unixMode &&& 0xf000 ≠ 0x8000

/-- What the archive library answers, and the checksum that goes with it. The buffer that it extracts to has the length of the entry. An iteration gives the
entries one after another and says whether it came to their end; the contents of an entry come in pieces, and the library
says whether they were all that there is. -/
structure Archive where
  crc : Crc32
  findEntry : Bytes → Option Entry
  extractToMemory : Entry → Option Bytes
  length_extract : ∀ e d, extractToMemory e = some d → d.length = e.uncompressedLength.toNat
  iterate : Option (List (Bytes × Entry) × Bool)
  contents : Entry → List Bytes × Bool

def small (a : Archive) (name : Bytes) (limit : Nat) : Option Bytes := do
  let entry ← a.findEntry name
  if entry.uncompressedLength.toNat > limit || entry.encrypted || entry.irregular then none
  else
    let data ← a.extractToMemory entry
    if @crc32 a.crc 0 data = entry.crc32 then some data else none

def androidInfo : Bytes := ascii "android-info.txt"

def superEmpty : Bytes := ascii "super_empty.img"

structure Group where
  name : Bytes
  maximumSize : UInt64
  flags : UInt32

structure LogicalPartition where
  name : Bytes
  groupIndex : Nat
  numExtents : Nat
  attributes : UInt32

structure Metadata where
  partitions : List LogicalPartition
  groups : List Group

structure ImageZipPartition where
  name : Bytes
  group : Bytes
  attributes : UInt32
  deriving DecidableEq

structure ImageZipGroup where
  name : Bytes
  bytes : UInt64

def slotted (name : Bytes) : Option (Bytes × UInt8) :=
  let slot := name.getD (name.length - 1) 0
  if ¬ Payload.Extraction.ValidName name ∨ name.length < 3 ∨ name.getD (name.length - 2) 0 ≠ 95 ∨
      (slot ≠ 97 ∧ slot ≠ 98) then none
  else some (name.take (name.length - 2), slot)

def isPartitionImageName (name : Bytes) : Bool :=
  if name = [] || name.length > 128 || name ∈ ["super", "userdata", "metadata", "misc", "persist", "cache", "frp",
      "devinfo", "modemst1", "modemst2", "fsg", "fsc", "config", "keystore"].map ascii then false
  else if name.length > 2 && (name.drop (name.length - 2) = ascii "_a" || name.drop (name.length - 2) = ascii "_b") then
    false
  else name.all fun c => (97 ≤ c && c ≤ 122) || (65 ≤ c && c ≤ 90) || (48 ≤ c && c ≤ 57) || c = 95 || c = 45

structure Groups where
  a : SortedMap Bytes UInt64 := .empty
  b : SortedMap Bytes UInt64 := .empty

def readGroups : List Group → Groups → Option Groups
  | [], groups => some groups
  | group :: rest, groups =>
    if group.name = ascii "default" then readGroups rest groups
    else do
      let (bare, slot) ← slotted group.name
      if group.flags ≠ 0 then none
      else if slot = 97 then readGroups rest { groups with a := groups.a.insert bare group.maximumSize }
      else readGroups rest { groups with b := groups.b.insert bare group.maximumSize }

structure Slots where
  a : SortedMap Bytes ImageZipPartition := .empty
  b : SortedMap Bytes ImageZipPartition := .empty

def readSlots (groups : List Group) : List LogicalPartition → Slots → Option Slots
  | [], slots => some slots
  | part :: rest, slots => do
      let (bare, slot) ← slotted part.name
      let group ← groups[part.groupIndex]?
      if part.numExtents ≠ 0 ∨ part.attributes &&& ~~~1 ≠ 0 then none
      else if group.name.length < 3 ∨ group.name.drop (group.name.length - 2) ≠ part.name.drop (part.name.length - 2) then
        none
      else if ¬ isPartitionImageName bare then none
      else
        let entry : ImageZipPartition := ⟨bare, group.name.take (group.name.length - 2), part.attributes⟩
        if slot = 97 then
          if (slots.a.find bare).isSome then none else readSlots groups rest { slots with a := slots.a.insert bare entry }
        else if (slots.b.find bare).isSome then none
        else readSlots groups rest { slots with b := slots.b.insert bare entry }

def pairSlots (other : SortedMap Bytes ImageZipPartition) : List (Bytes × ImageZipPartition) →
    List ImageZipPartition → Bool × List ImageZipPartition
  | [], layout => (true, layout)
  | (name, part) :: rest, layout =>
    match other.find name with
    | none => (false, layout)
    | some twin =>
      if twin.group ≠ part.group ∨ twin.attributes ≠ part.attributes then (false, layout)
      else pairSlots other rest (layout ++ [part])

structure Layout where
  ok : Bool
  partitions : List ImageZipPartition := []
  groups : List ImageZipGroup := []

def readLayout (metadata : Option Metadata) : Layout :=
  match metadata with
  | none => ⟨false, [], []⟩
  | some m =>
    if m.partitions.length > 512 ∨ m.groups.length > 128 then ⟨false, [], []⟩
    else
      match readGroups m.groups {} with
      | none => ⟨false, [], []⟩
      | some groups =>
        if groups.a.entries ≠ groups.b.entries then ⟨false, [], []⟩
        else
          match readSlots m.groups m.partitions {} with
          | none => ⟨false, [], []⟩
          | some slots =>
            if slots.a.entries = [] ∨ slots.a.entries.length ≠ slots.b.entries.length then ⟨false, [], []⟩
            else
              match pairSlots slots.b slots.a.entries [] with
              | (false, layout) => ⟨false, layout, []⟩
              | (true, layout) => ⟨true, layout, groups.a.entries.map fun g => ⟨g.1, g.2⟩⟩

def bind (value : Bytes) : Bytes := LittleEndian.bytes 8 value.length ++ value

/-- `to_string` of a signed number. -/
def decimalInt (n : Int) : Bytes := if n < 0 then 45 :: decimal n.natAbs else decimal n.natAbs

def Entry.text (e : Entry) : Bytes :=
  decimalInt e.offset.toInt ++ ascii ":" ++ decimal e.method.toNat ++ ascii ":" ++ decimal e.crc32.toNat ++ ascii ":" ++
    decimal e.compressedLength.toNat ++ ascii ":" ++ decimal e.uncompressedLength.toNat

def reviewed (requirements : Bytes) (layout : Option Bytes) (images : List (Bytes × Entry)) : Bytes :=
  bind requirements ++ (layout.map bind).getD [] ++ images.flatMap fun image => bind image.1 ++ bind image.2.text

structure ImagePartition extends Partition where
  name : Bytes
  extractable : Bool
  extractionError : Bytes

def prefixBytes : Bytes → List Bytes → Bytes
  | p, [] => p
  | p, data :: pieces =>
    let p := p ++ data.take (64 - p.length)
    if p.length < 64 then prefixBytes p pieces else p

def describe (a : Archive) (name : Bytes) (image : Entry) : ImagePartition :=
  let bytes := image.uncompressedLength.toNat
  let unsupported := ascii "Unsupported image size, encoding or compression"
  if bytes ≠ 0 ∧ bytes ≤ kMaxImage ∧ (image.method = 0 ∨ image.method = 8) then
    let p := prefixBytes [] (a.contents image).1
    let sparse := decide (4 ≤ p.length ∧ le32 p 0 = 0xed26ff3a)
    let bytes := if sparse then if 28 ≤ p.length ∧ le16 p 4 = 1 then le32 p 12 * le32 p 16 else 0 else bytes
    let extractable := decide (bytes ≠ 0 ∧ bytes ≤ kMaxImage ∧ p ≠ [])
    { bytes, sparse, name, extractable, extractionError := if extractable then [] else unsupported }
  else { bytes, sparse := false, name, extractable := false, extractionError := unsupported }

def isImage (file : Bytes) : Bool :=
  !(file = superEmpty || file.length < 5 || file.drop (file.length - 4) ≠ ascii ".img")

/-- The loop over the directory. `none` is an unsafe, nested or duplicate name. -/
def collect : List (Bytes × Entry) → SortedMap Bytes Entry → Option (SortedMap Bytes Entry)
  | [], images => some images
  | (file, entry) :: rest, images =>
    if !isImage file then collect rest images
    else
      let bare := file.take (file.length - 4)
      if ¬ Payload.Extraction.ValidName bare ∨ entry.encrypted ∨ entry.irregular ∨ (images.find bare).isSome ∨
          (images.insert bare entry).entries.length > 512 then none
      else collect rest (images.insert bare entry)

structure Arb where
  available : Bool := false
  index : UInt32 := 0
  detail : Bytes := []

structure Info where
  isImageZip : Bool := false
  requirements : Bytes := []
  groups : List ImageZipGroup := []
  layout : List ImageZipPartition := []
  valid : Bool := false
  dynamicPartitions : Bool := false
  payloadBytes : UInt64 := 0
  expandedBytes : Nat := 0
  targetDevice : Bytes := []
  targetBuild : Bytes := []
  nameFromFilename : Bool := false
  arb : Arb := {}
  error : Bytes := []
  manifestHash : Bytes := []
  partitions : List ImagePartition := []

section

variable (readFromImageBlob : Bytes → Option Metadata) (readFirmwareArb : Bytes → Arb) (sha256 : Bytes → Bytes)

variable (a : Archive) (info : Info)

def inspectRequirements : Except Info Info :=
  match small a androidInfo (512 * 1024) with
  | none => .error { info with error := ascii "Invalid android-info.txt" }
  | some text =>
    if 0 ∈ text then .error { info with requirements := text, error := ascii "Invalid android-info.txt" }
    else .ok { info with requirements := text }

def inspectLayout : Except Info (Option Bytes × Info) :=
  match a.findEntry superEmpty with
  | none => .ok (none, info)
  | some _ =>
    match small a superEmpty (4 * 1024 * 1024) with
    | none => .error { info with error := ascii "Unsupported or invalid super_empty.img layout metadata" }
    | some blob =>
      let layout := readLayout (readFromImageBlob blob)
      let info := { info with layout := layout.partitions, groups := layout.groups }
      if layout.ok then .ok (some blob, info)
      else .error { info with error := ascii "Unsupported or invalid super_empty.img layout metadata" }

def inspectImages : Except Info (List (Bytes × Entry)) :=
  match a.iterate with
  | none => .error { info with error := ascii "Cannot list ZIP images" }
  | some (files, finished) =>
    match collect files .empty with
    | none => .error { info with error := ascii "Unsafe, nested or duplicate image name in ZIP" }
    | some images =>
      if !finished ∨ images.entries = [] then
        .error { info with error := ascii "No readable partition images in ZIP" }
      else .ok images.entries

def addPartition (image : Bytes × Entry) : Except Info Info :=
  let part := describe a image.1 image.2
  if part.bytes > 2 ^ 64 - 1 - info.expandedBytes then .error { info with error := ascii "Image sizes overflow" }
  else .ok { info with
    expandedBytes := info.expandedBytes + part.bytes
    payloadBytes := info.payloadBytes + image.2.compressedLength
    partitions := info.partitions ++ [part] }

def targetDevice (requirements : Bytes) : Bytes :=
  (getlines 10 requirements).foldl (fun device line =>
    let key := trim (line.takeWhile (· ≠ 61))
    if 61 ∈ line ∧ key ∈ ["require board", "require product", "board", "product"].map ascii then
      trim ((line.dropWhile (· ≠ 61)).drop 1)
    else device) []

def inspectArb (readArb : Bool) : Arb :=
  if readArb then ((small a (ascii "xbl_config.img") (16 * 1024 * 1024)).map readFirmwareArb).getD {} else {}

def inspection (path : Bytes) (readArb : Bool) : Except Info Info := do
  let info ← inspectRequirements a { isImageZip := true }
  let info : Info := { info with targetBuild := path.rtakeWhile (· ≠ 47), nameFromFilename := true }
  let (layout, info) ← inspectLayout readFromImageBlob a info
  let info : Info := { info with dynamicPartitions := info.layout ≠ [] }
  let images ← inspectImages a info
  let info ← images.foldlM (addPartition a) info
  .ok { info with
    manifestHash := sha256 (reviewed info.requirements layout images)
    targetDevice := targetDevice info.requirements
    arb := inspectArb readFirmwareArb a readArb
    valid := true }

def inspectImageZip (path : Bytes) (readArb : Bool) : Info :=
  match a.findEntry androidInfo with
  | none => {}
  | some _ =>
    match inspection readFromImageBlob readFirmwareArb sha256 a path readArb with
    | .ok info => info
    | .error info => info

end

end AeraRecovery.ImageZip
