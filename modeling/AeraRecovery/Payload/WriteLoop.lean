import AeraRecovery.Payload.Extraction
import AeraRecovery.Payload.Image

namespace AeraRecovery.Payload.WriteLoop

open Lib Storage Tiling Extraction Image Option List

/-- The decompressors, from input bytes to the whole output if the stream is intact. -/
structure Codecs where
  bzip2 : Bytes → Option Bytes
  xz : Bytes → Option Bytes
  zstd : Bytes → Option Bytes

/-- `Decode`: the output must have exactly the size the extents ask for. -/
def Codecs.decode (codecs : Codecs) (type : OperationType) (input : Bytes) (count : Nat) : Option Bytes :=
  match type with
  | .replace => if input.length = count then some input else none
  | .replaceBz => (codecs.bzip2 input).filter fun out => out.length = count
  | .replaceZstd => (codecs.zstd input).filter fun out => out.length = count
  | .replaceXz => (codecs.xz input).filter fun out => out.length = count
  | _ => none

/-- The opened package after the header checks: where the payload's data begins and how long it is. -/
structure Package where
  file : Bytes
  base : UInt64
  dataSize : UInt64
  inside : base.toNat + dataSize.toNat ≤ file.length
  signed : file.length < 2 ^ 63

def Package.data (package : Package) : Bytes := package.file.slice package.base.toNat package.dataSize.toNat

/-- What the loop depends on besides the manifest. `accepts` says which writes the storage carries out. -/
structure Environment where
  package : Package
  sha256 : Bytes → Bytes
  codecs : Codecs
  accepts : Nat → Nat → Bool

/-- `Read` at an offset of the package. -/
def read (file : Bytes) (offset length : Nat) : Option Bytes :=
  if length = 0 ∨ offset + length ≤ file.length then some (file.slice offset length) else none

def hashMatches (sha256 : Bytes → Bytes) (data expected : Bytes) : Bool :=
  expected.length = sha256Length ∧ sha256 data = expected

def count (block : UInt64) (op : InstallOperation) : UInt64 :=
  op.dstExtents.foldl (fun n e => n + e.num * block) 0

variable (env : Environment)

def decodeOperation (block : UInt64) (op : InstallOperation) : Option Bytes := do
  let input ← read env.package.file (env.package.base + op.offset).toNat op.length.toNat
  if hashMatches env.sha256 input op.hash then env.codecs.decode op.type input (count block op).toNat else none

def writeExtents (accepts : Nat → Nat → Bool) (block : UInt64) (decoded : Bytes) :
    Bytes → Nat → List Extent → Option Bytes
  | image, _, [] => some image
  | image, offset, e :: es =>
    if accepts (e.start * block).toNat (e.num * block).toNat then
      writeExtents accepts block decoded
        (pwrite image (e.start * block).toNat (decoded.slice offset (e.num * block).toNat))
        (offset + (e.num * block).toNat) es
    else none

def writeOperation (block : UInt64) (image : Bytes) (op : InstallOperation) : Option Bytes :=
  if op.type.empty then some image
  else (decodeOperation env block op).bind fun decoded =>
    writeExtents env.accepts block decoded image 0 op.dstExtents

def writeImage (block size : UInt64) (ops : List InstallOperation) : Option Bytes :=
  ops.foldlM (writeOperation env block) (replicate size.toNat 0)

def produced (block : UInt64) (op : InstallOperation) : Bytes :=
  if op.type.empty then replicate (span block.toNat op.dstExtents) 0
  else (decodeOperation env block op).getD []

theorem read_data {package : Package} {offset length : UInt64}
    (h : offset.toNat + length.toNat ≤ package.dataSize.toNat) :
    read package.file (package.base + offset).toNat length.toNat =
      some (package.data.slice offset.toNat length.toNat) := by
  have hinside := package.inside
  have hsigned := package.signed
  have hsum : (package.base + offset).toNat = package.base.toNat + offset.toNat := by
    rw [UInt64.toNat_add, Nat.mod_eq_of_lt (by omega)]
  rw [read, hsum, if_pos (by omega)]
  simp only [Package.data, Bytes.slice, drop_take, drop_drop, take_take]
  rw [min_eq_left (by omega)]

theorem decode_length {codecs : Codecs} {type : OperationType} {input out : Bytes} {count : Nat}
    (h : codecs.decode type input count = some out) : out.length = count := by
  cases type with
  | replace =>
    simp only [Codecs.decode, ite_none_right_eq_some, some.injEq] at h
    exact h.2 ▸ h.1
  | replaceBz | replaceXz | replaceZstd => exact of_decide_eq_true (filter_eq_some_iff.mp h).2
  | _ => cases h

section

variable {env : Environment} {size block : UInt64} {dataSize : Nat}

theorem toNat_sum {es : List Extent} (hall : ∀ e ∈ es, Extent.Inside (size.toNat / block.toNat) e) (n : UInt64)
    (hfits : n.toNat + span block.toNat es ≤ size.toNat) :
    (es.foldl (fun n e => n + e.num * block) n).toNat = n.toNat + span block.toNat es := by
  induction es generalizing n with
  | nil => rfl
  | cons e es ih =>
    have hin := hall e mem_cons_self
    have hlt := size.toNat_lt
    rw [span_cons] at hfits ⊢
    have hadd : (n + e.num * block).toNat = n.toNat + e.num.toNat * block.toNat := by
      rw [UInt64.toNat_add, hin.toNat_num, Nat.mod_eq_of_lt (by omega)]
    rw [foldl_cons, ih (fun x hx => hall x (mem_cons_of_mem e hx)) _ (by omega), hadd]
    omega

theorem toNat_count {op : InstallOperation} (hplain : Plain size.toNat block.toNat dataSize op)
    (hfits : span block.toNat op.dstExtents ≤ size.toNat) :
    (count block op).toNat = span block.toNat op.dstExtents := by
  have h := toNat_sum hplain.extents 0 (by simpa only [UInt64.toNat_zero, zero_add] using hfits)
  rw [count, h, UInt64.toNat_zero, zero_add]

variable {image' image : Bytes}

theorem writeExtents_eq {accepts : Nat → Nat → Bool} {decoded : Bytes} {offset : Nat} {es : List Extent}
    (hall : ∀ e ∈ es, Extent.Inside (size.toNat / block.toNat) e)
    (h : writeExtents accepts block decoded image offset es = some image') :
    image' = patch image (split (decoded.drop offset) (es.map (Extent.bytes block.toNat))) := by
  induction es generalizing image offset with
  | nil =>
    obtain rfl := some.inj h
    rfl
  | cons e es ih =>
    have hin := hall e mem_cons_self
    rw [writeExtents, ite_none_right_eq_some, hin.toNat_start, hin.toNat_num, ← e.bytes_length] at h
    have hrest := ih (fun x hx => hall x (mem_cons_of_mem e hx)) h.2
    rw [hrest, map_cons, split, drop_drop]
    rfl

theorem writeOperation_some {op : InstallOperation}
    (hplain : Plain size.toNat block.toNat dataSize op) (hfits : span block.toNat op.dstExtents ≤ size.toNat)
    (h : writeOperation env block image op = some image') :
    (produced env block op).length = span block.toNat op.dstExtents ∧
      image' = patch image (dataPieces (produced env block) block.toNat op) := by
  rw [writeOperation] at h
  rw [dataPieces, pieces, produced]
  split_ifs at h ⊢ with hempty
  · obtain rfl := some.inj h
    exact ⟨length_replicate, rfl⟩
  · obtain ⟨decoded, hdecoded, hwrite⟩ := bind_eq_some_iff.mp h
    rw [hdecoded, getD_some]
    constructor
    · rw [← toNat_count hplain hfits]
      obtain ⟨input, -, hinput⟩ := bind_eq_some_iff.mp hdecoded
      exact decode_length (ite_none_right_eq_some.mp hinput).2
    · exact writeExtents_eq hplain.extents hwrite

theorem writeOperations_some {ops : List InstallOperation}
    (hplain : ∀ op ∈ ops, Plain size.toNat block.toNat dataSize op)
    (hfits : ∀ op ∈ ops, span block.toNat op.dstExtents ≤ size.toNat)
    (h : ops.foldlM (writeOperation env block) image = some image') :
    (∀ op ∈ ops, (produced env block op).length = span block.toNat op.dstExtents) ∧ image' = patch image
        (ops.flatMap (dataPieces (produced env block) block.toNat)) := by
  induction ops generalizing image with
  | nil =>
    obtain rfl := some.inj h
    exact ⟨nofun, rfl⟩
  | cons op ops ih =>
    rw [forall_mem_cons] at hplain hfits ⊢
    obtain ⟨next, hnext, hrest⟩ := bind_eq_some_iff.mp h
    obtain ⟨hlen, rfl⟩ := writeOperation_some hplain.1 hfits.1 hnext
    obtain ⟨hlens, rfl⟩ := ih hplain.2 hfits.2 hrest
    refine ⟨⟨hlen, hlens⟩, ?_⟩
    rw [flatMap_cons, patch, patch, patch, foldl_append]

end

theorem writeImage_eq {env : Environment} {p : PartitionUpdate} {block : UInt64} {dataSize : Nat}
    (h : Extractable p block dataSize) {ops : List InstallOperation} (hp : ops.Perm p.operations) {image : Bytes}
    (hwrite : writeImage env block p.size ops = some image) :
    (∀ op ∈ p.operations, (produced env block op).length = span block.toNat op.dstExtents) ∧
      image = referenceImage (produced env block) block.toNat p.size.toNat p.operations := by
  have htiles : Tiles 0 p.size.toNat (ops.flatMap (InstallOperation.bytes block.toNat)) :=
    h.tiles.perm (hp.symm.flatMap_right _)
  obtain ⟨hlen, rfl⟩ := writeOperations_some (fun op hop => h.operations op (hp.mem_iff.mp hop))
    (fun op hop => span_le_of_tiles h.tiles (hp.mem_iff.mp hop)) hwrite
  refine ⟨fun op hop => hlen op (hp.mem_iff.mpr hop), ?_⟩
  have hzero : ∀ op ∈ ops, op.type.empty = true → ∀ b ∈ produced env block op, b = 0 := by
    intro op _ hempty b hb
    rw [produced, if_pos hempty] at hb
    exact eq_of_mem_replicate hb
  rw [patch_dataPieces htiles hlen hzero, referenceImage_perm htiles hlen hp]

/-- An accepted update is an exact tiling, reads only payload data, and determines one image, whatever the order of
its operations. -/
theorem extraction_tiles_and_commutes (p : PartitionUpdate) (block dataSize : UInt64)
    (h : extractionError p block dataSize = "") : p.size.toNat = p.size.toNat / block.toNat * block.toNat ∧
    Tiles 0 (p.size.toNat / block.toNat) (blocks p) ∧
    (∀ op ∈ p.operations, span block.toNat op.dstExtents < 2 ^ 64 ∧ ∀ e ∈ op.dstExtents,
      e.start.toNat + e.num.toNat < 2 ^ 64 ∧ (e.start.toNat + e.num.toNat) * block.toNat < 2 ^ 64 ∧
      e.num.toNat * block.toNat < 2 ^ 64) ∧
    (∀ op ∈ p.operations, ¬ op.type.empty → op.offset.toNat + op.length.toNat ≤ dataSize.toNat ∧
      ∀ package : Package, package.dataSize = dataSize →
        read package.file (package.base + op.offset).toNat op.length.toNat =
          some (package.data.slice op.offset.toNat op.length.toNat)) ∧
    ∀ (env : Environment) (ops : List InstallOperation) (image : Bytes), ops.Perm p.operations →
      writeImage env block p.size ops = some image →
      image = referenceImage (produced env block) block.toNat p.size.toNat p.operations ∧
      image.length = p.size.toNat ∧
      ∀ op ∈ p.operations, gather image (op.bytes block.toNat) = produced env block op := by
  have hext : Extractable p block dataSize.toNat :=
    (check_ok_iff p block dataSize).mp ((extractionError_eq_empty_iff p block dataSize).mp h)
  have hblock := hext.blockSize.pos
  have hsigned := hext.signed
  refine ⟨(Nat.div_mul_cancel hext.aligned).symm, tiles_blocks hblock hext.aligned hext.tiles, ?_, ?_, ?_⟩
  · intro op hop
    have hspan := span_le_of_tiles hext.tiles hop
    refine ⟨by omega, fun e he => ?_⟩
    have hin := ((hext.operations op hop).extents e he).2
    have hdiv := Nat.div_le_self p.size.toNat block.toNat
    have hmul := (Nat.mul_le_mul_right block.toNat hin).trans (Nat.div_mul_le_self _ _)
    rw [add_mul] at hmul ⊢
    omega
  · intro op hop hdata
    have hop := (hext.operations op hop).data
    rw [if_neg hdata] at hop
    refine ⟨hop.inside, ?_⟩
    rintro package rfl
    exact read_data hop.inside
  · intro env ops image hp hwrite
    obtain ⟨hlen, rfl⟩ := writeImage_eq hext hp hwrite
    exact ⟨rfl, length_referenceImage hext.tiles hlen, fun op hop => gather_referenceImage hext.tiles hlen hop⟩

/-- Two blocks of one byte: the second from the payload, the first a zero operation listed after it. -/
def sampleUpdate : PartitionUpdate where
  partitionName := Bytes.ascii "boot"
  newPartitionInfo := some ⟨some 2, some (replicate 32 0)⟩
  operations := [
    { type := .replace, dataOffset := some 1, dataLength := some 1, dstExtents := [⟨some 1, some 1⟩],
      dataSha256Hash := some (replicate 32 0) },
    { type := .zero, dstExtents := [⟨none, some 1⟩] }]

def sampleEnvironment : Environment where
  package := ⟨[9, 8, 7], 1, 2, by decide, by decide⟩
  sha256 _ := replicate 32 0
  codecs := ⟨fun _ => none, fun _ => none, fun _ => none⟩
  accepts _ _ := true

theorem extraction_of_sampleUpdate :
    extractionError sampleUpdate 1 2 = "" ∧ writeImage sampleEnvironment 1 2 sampleUpdate.operations = some [0, 7] ∧
      ∀ (ops : List InstallOperation) (image : Bytes), ops.Perm sampleUpdate.operations →
        writeImage sampleEnvironment 1 2 ops = some image →
        image = referenceImage (produced sampleEnvironment 1) 1 2 sampleUpdate.operations := by
  have haccept : extractionError sampleUpdate 1 2 = "" := by decide +kernel
  refine ⟨haccept, by decide +kernel, fun ops image hp hwrite => ?_⟩
  exact ((extraction_tiles_and_commutes sampleUpdate 1 2 haccept).2.2.2.2 sampleEnvironment ops image hp hwrite).1

end AeraRecovery.Payload.WriteLoop
