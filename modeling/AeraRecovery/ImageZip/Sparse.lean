import AeraRecovery.Lib.Crc32

namespace AeraRecovery.ImageZip

open Lib Bytes Crc32 List

def rawChunk : Nat := 0xcac1

def fillChunk : Nat := 0xcac2

def dontCareChunk : Nat := 0xcac3

def crcChunk : Nat := 0xcac4

variable (fill : Bytes)

def cycle (n : Nat) : Bytes := (range n).map fun i => fill.getD (i % 4) 0

theorem length_cycle (n : Nat) : (cycle fill n).length = n := by
  simp only [cycle, length_map, length_range]

theorem cycle_add {m : Nat} (hm : m % 4 = 0) (n : Nat) :
    cycle fill (m + n) = cycle fill m ++ cycle fill n := by
  simp only [cycle, range_add, map_append, map_map]
  congr 1
  refine map_congr_left fun i _ => ?_
  rw [Function.comp_apply, show (m + i) % 4 = i % 4 by omega]

theorem take_cycle {m n : Nat} (h : m ≤ n) : (cycle fill n).take m = cycle fill m := by
  rw [cycle, ← map_take, take_range, Nat.min_eq_left h]
  rfl

theorem cycle_nil (n : Nat) : cycle [] n = replicate n 0 := by
  simp only [cycle, getD_nil, map_const', length_range]

structure Format where
  bytes : Nat
  block : Nat
  chunkHeader : Nat
  imageCrc : Nat

@[mk_iff]
structure HeaderFits (bytes : Nat) (p : Bytes) : Prop where
  magic : le32 p 0 = 0xed26ff3a
  major : le16 p 4 = 1
  header : 28 ≤ le16 p 8 ∧ le16 p 8 ≤ 1024
  chunkHeader : 12 ≤ le16 p 10 ∧ le16 p 10 ≤ 1024
  block : le32 p 12 ≠ 0 ∧ le32 p 12 % 4 = 0 ∧ le32 p 12 ≤ 2 ^ 20
  chunks : 1 ≤ le32 p 20 ∧ le32 p 20 ≤ 10000000
  size : le32 p 12 * le32 p 16 = bytes

variable (bytes : Nat)

def format (p : Bytes) : Format := ⟨bytes, le32 p 12, le16 p 10, le32 p 24⟩

theorem headerFits_take (header : Bytes) :
    HeaderFits bytes (header.take 28) ↔ HeaderFits bytes header := by
  simp (disch := omega) only [headerFits_iff, le32_take, le16_take]

theorem format_take (header : Bytes) : format bytes (header.take 28) = format bytes header := by
  simp (disch := omega) only [format, le32_take, le16_take]

def payloadSize (type length : Nat) : Nat :=
  if type = rawChunk then length else if type = dontCareChunk then 0 else 4

def known (type : Nat) : Prop := type = rawChunk ∨ type = fillChunk ∨ type = dontCareChunk ∨ type = crcChunk

instance (type : Nat) : Decidable (known type) := inferInstanceAs (Decidable (_ ∨ _))

def expansion (type length : Nat) (payload : Bytes) : Bytes :=
  if type = rawChunk then payload
  else if type = fillChunk then cycle payload length
  else replicate length 0

theorem length_expansion {type length : Nat} {payload : Bytes} (hsize : payload.length = payloadSize type length) :
    (expansion type length payload).length = length := by
  rw [expansion]
  split_ifs with hraw hfill
  · rwa [payloadSize, if_pos hraw] at hsize
  · exact length_cycle payload length
  · exact length_replicate

variable [Crc32]

structure Chunk where
  header : Bytes
  payload : Bytes

namespace Chunk

def type (c : Chunk) : Nat := le16 c.header 0

def length (f : Format) (c : Chunk) : Nat := le32 c.header 4 * f.block

def expand (f : Format) (c : Chunk) : Bytes := expansion c.type (c.length f) c.payload

structure WellFormed (f : Format) (before : Bytes) (c : Chunk) : Prop where
  type : known c.type
  header : c.header.length = f.chunkHeader
  payload : c.payload.length = payloadSize c.type (c.length f)
  total : le32 c.header 8 = f.chunkHeader + c.payload.length
  length : c.length f = 0 ↔ c.type = crcChunk
  crc : c.type = crcChunk → le32 c.payload 0 = (checksum 0 before).toNat

end Chunk

def WellFormedChunks (f : Format) : Bytes → List Chunk → Prop
  | _, [] => True
  | before, c :: cs => c.WellFormed f before ∧ WellFormedChunks f (before ++ c.expand f) cs

structure SparseImage (bytes : Nat) (stream image header : Bytes) (chunks : List Chunk) : Prop where
  encoding : stream = header ++ chunks.flatMap fun c => c.header ++ c.payload
  expansion : image = chunks.flatMap (Chunk.expand (format bytes header))
  limits : HeaderFits bytes header
  headerSize : header.length = le16 header 8
  count : chunks.length = le32 header 20
  wellFormed : WellFormedChunks (format bytes header) [] chunks
  size : image.length = bytes
  checksum : le32 header 24 = 0 ∨ le32 header 24 = (checksum 0 image).toNat

instance (bytes : Nat) (p : Bytes) : Decidable (HeaderFits bytes p) := decidable_of_iff _ (headerFits_iff bytes p).symm

@[mk_iff]
structure ChunkFits (f : Format) (out p : Bytes) : Prop where
  room : le32 p 4 * f.block ≤ f.bytes - out.length
  type : known (le16 p 0)
  length : le32 p 4 * f.block = 0 ↔ le16 p 0 = crcChunk
  total : le32 p 8 = f.chunkHeader + payloadSize (le16 p 0) (le32 p 4 * f.block)

instance (f : Format) (out p : Bytes) : Decidable (ChunkFits f out p) :=
  decidable_of_iff _ (chunkFits_iff f out p).symm

/-- The payload of a chunk, and then what `next` makes of the extended output and the rest of the stream. -/
def body (next : Bytes → Bytes → Option Bytes) (out : Bytes) (type length : Nat) (s : Bytes) : Option Bytes :=
  if type = rawChunk then (readExact length s).bind fun r => next (out ++ r.1) r.2
  else if type = fillChunk then (readExact 4 s).bind fun r => next (out ++ cycle r.1 length) r.2
  else if type = dontCareChunk then next (out ++ cycle [] length) s
  else (readExact 4 s).bind fun r => if le32 r.1 0 = (checksum 0 out).toNat then next out r.2 else none

/-- What `n` more chunks and the end of the stream make of the output so far. -/
def tail (f : Format) : Nat → Bytes → Bytes → Option Bytes
  | 0, out, s =>
    if s = [] ∧ out.length = f.bytes ∧ (f.imageCrc = 0 ∨ f.imageCrc = (checksum 0 out).toNat) then some out else none
  | n + 1, out, s => (readExact 12 s).bind fun r =>
    if ChunkFits f out r.1 then
      (readExact (f.chunkHeader - 12) r.2).bind fun q =>
        body (tail f n) out (le16 r.1 0) (le32 r.1 4 * f.block) q.2
    else none

def decode (s : Bytes) : Option Bytes :=
  (readExact 28 s).bind fun r =>
    if HeaderFits bytes r.1 then
      (readExact (le16 r.1 8 - 28) r.2).bind fun q => tail (format bytes r.1) (le32 r.1 20) [] q.2
    else none

variable {image : Bytes}

theorem body_eq_some_iff {next : Bytes → Bytes → Option Bytes} {type length : Nat} {out s : Bytes}
    (htype : known type) (hlength : length = 0 ↔ type = crcChunk) : body next out type length s = some image ↔
      ∃ payload rest, s = payload ++ rest ∧ payload.length = payloadSize type length ∧
        (type = crcChunk → le32 payload 0 = (checksum 0 out).toNat) ∧
        next (out ++ expansion type length payload) rest = some image := by
  rcases htype with rfl | rfl | rfl | rfl
  · simp only [body, payloadSize, expansion, if_true, Option.bind_eq_some_iff, Prod.exists, readExact_eq_some_iff,
      show rawChunk ≠ crcChunk by decide, false_implies, true_and]
    exact ⟨fun ⟨a, b, ⟨h₁, h₂⟩, h₃⟩ => ⟨a, b, h₂, h₁, h₃⟩, fun ⟨a, b, h₂, h₁, h₃⟩ => ⟨a, b, ⟨h₁, h₂⟩, h₃⟩⟩
  · simp only [body, payloadSize, expansion, show fillChunk ≠ rawChunk by decide,
      show fillChunk ≠ dontCareChunk by decide, show fillChunk ≠ crcChunk by decide, if_true, if_false,
      Option.bind_eq_some_iff, Prod.exists, readExact_eq_some_iff, false_implies, true_and]
    exact ⟨fun ⟨a, b, ⟨h₁, h₂⟩, h₃⟩ => ⟨a, b, h₂, h₁, h₃⟩, fun ⟨a, b, h₂, h₁, h₃⟩ => ⟨a, b, ⟨h₁, h₂⟩, h₃⟩⟩
  · simp only [body, payloadSize, expansion, show dontCareChunk ≠ rawChunk by decide,
      show dontCareChunk ≠ fillChunk by decide, show dontCareChunk ≠ crcChunk by decide, if_true, if_false,
      false_implies, true_and, cycle_nil, length_eq_zero_iff]
    constructor
    · intro hnext
      exact ⟨[], s, rfl, rfl, hnext⟩
    · rintro ⟨payload, rest, rfl, rfl, hnext⟩
      exact hnext
  · -- a checksum stands for no output
    obtain rfl : length = 0 := hlength.mpr rfl
    simp only [body, payloadSize, expansion, show crcChunk ≠ rawChunk by decide, show crcChunk ≠ fillChunk by decide,
      show crcChunk ≠ dontCareChunk by decide, if_false, Option.bind_eq_some_iff, Prod.exists, readExact_eq_some_iff,
      forall_const, replicate_zero, append_nil, Option.ite_none_right_eq_some]
    exact ⟨fun ⟨a, b, ⟨h₁, h₂⟩, h₃, h₄⟩ => ⟨a, b, h₂, h₁, h₃, h₄⟩,
      fun ⟨a, b, h₂, h₁, h₃, h₄⟩ => ⟨a, b, ⟨h₁, h₂⟩, h₃, h₄⟩⟩

theorem tail_eq_some_iff {f : Format} (hf : 12 ≤ f.chunkHeader) {n : Nat} {out s : Bytes} :
    tail f n out s = some image ↔ ∃ chunks, chunks.length = n ∧ WellFormedChunks f out chunks ∧
        s = chunks.flatMap (fun c => c.header ++ c.payload) ∧ image = out ++ chunks.flatMap (Chunk.expand f) ∧
        image.length = f.bytes ∧ (f.imageCrc = 0 ∨ f.imageCrc = (checksum 0 image).toNat) := by
  induction n generalizing out s with
  | zero =>
    simp only [tail, Option.ite_none_right_eq_some, Option.some.injEq, length_eq_zero_iff]
    constructor
    · rintro ⟨⟨rfl, hlen, hcrc⟩, rfl⟩
      exact ⟨[], rfl, trivial, rfl, (append_nil _).symm, hlen, hcrc⟩
    · rintro ⟨chunks, rfl, -, rfl, rfl, hlen, hcrc⟩
      rw [flatMap_nil, append_nil] at hlen hcrc
      exact ⟨⟨rfl, hlen, hcrc⟩, (append_nil out).symm⟩
  | succ n ih =>
    simp only [tail, Option.bind_eq_some_iff, Prod.exists, readExact_eq_some_iff, Option.ite_none_right_eq_some]
    constructor
    · rintro ⟨p, s₁, ⟨hp, rfl⟩, hfits, q, s₂, ⟨hq, rfl⟩, hbody⟩
      obtain ⟨payload, rest, rfl, hsize, hcrc, hnext⟩ := (body_eq_some_iff hfits.type hfits.length).mp hbody
      have htype : le16 (p ++ q) 0 = le16 p 0 := le16_append q (by omega)
      have hblocks : le32 (p ++ q) 4 = le32 p 4 := le32_append q (by omega)
      have htotal : le32 (p ++ q) 8 = le32 p 8 := le32_append q (by omega)
      obtain ⟨chunks, rfl, hchunks, rfl, rfl, hlen, hsum⟩ := ih.mp hnext
      let c : Chunk := ⟨p ++ q, payload⟩
      have hexpand : c.expand f = expansion (le16 p 0) (le32 p 4 * f.block) payload := by
        simp only [c, Chunk.expand, Chunk.type, Chunk.length, htype, hblocks]
      have hc : c.WellFormed f out := by
        constructor
        · simpa only [c, Chunk.type, htype] using hfits.type
        · simp only [c, length_append]
          omega
        · simpa only [c, Chunk.type, Chunk.length, htype, hblocks] using hsize
        · simp only [c, htotal, hfits.total, hsize]
        · simpa only [c, Chunk.type, Chunk.length, htype, hblocks] using hfits.length
        · simpa only [c, Chunk.type, htype] using hcrc
      refine ⟨c :: chunks, rfl, ⟨hc, hexpand ▸ hchunks⟩, ?_, ?_, hlen, hsum⟩
      · simp only [c, flatMap_cons, append_assoc]
      · simp only [flatMap_cons, hexpand, append_assoc]
    · rintro ⟨chunks, hcount, hchunks, rfl, himage, hlen, hsum⟩
      obtain ⟨c, chunks, rfl⟩ := exists_cons_of_length_eq_add_one hcount
      obtain ⟨hc, hchunks⟩ := hchunks
      have hheader := hc.header
      have htype : le16 (c.header.take 12) 0 = le16 c.header 0 := le16_take (by omega)
      have hblocks : le32 (c.header.take 12) 4 = le32 c.header 4 := le32_take (by omega)
      have htotal : le32 (c.header.take 12) 8 = le32 c.header 8 := le32_take (by omega)
      rw [flatMap_cons, ← append_assoc] at himage
      have hlength : (c.expand f).length = c.length f := length_expansion hc.payload
      have hroom : c.length f ≤ f.bytes - out.length := by
        rw [← hlen, himage, length_append, length_append]
        omega
      have hfits : ChunkFits f out (c.header.take 12) := by
        constructor
        · rw [hblocks]
          exact hroom
        · rw [htype]
          exact hc.type
        · rw [htype, hblocks]
          exact hc.length
        · rw [htype, hblocks, htotal, hc.total, hc.payload]
          rfl
      refine ⟨c.header.take 12, c.header.drop 12 ++ (c.payload ++ chunks.flatMap fun c => c.header ++ c.payload),
        ⟨length_take_of_le (by omega), ?_⟩, hfits, c.header.drop 12, _, ⟨?_, rfl⟩, ?_⟩
      · rw [← append_assoc, take_append_drop, flatMap_cons, append_assoc]
      · rw [length_drop, hheader]
      · rw [htype, hblocks]
        exact (body_eq_some_iff hc.type hc.length).mpr ⟨c.payload, _, rfl, hc.payload, hc.crc,
          ih.mpr ⟨chunks, Nat.succ.inj hcount, hchunks, rfl, himage, hlen, hsum⟩⟩

theorem decode_eq_some_iff {bytes : Nat} {s : Bytes} :
    decode bytes s = some image ↔ ∃ header chunks, SparseImage bytes s image header chunks := by
  simp only [decode, Option.bind_eq_some_iff, Prod.exists, readExact_eq_some_iff, Option.ite_none_right_eq_some]
  constructor
  · rintro ⟨p, s₁, ⟨hp, rfl⟩, hfits, q, s₂, ⟨hq, rfl⟩, htail⟩
    have hpref : p = (p ++ q).take 28 := by rw [← hp, take_left]
    obtain ⟨chunks, hcount, hchunks, rfl, himage, hlen, hsum⟩ := (tail_eq_some_iff hfits.chunkHeader.1).mp htail
    have hsize := hfits.header
    have hformat : format bytes (p ++ q) = format bytes p := by rw [← format_take, ← hpref]
    rw [← hformat] at hchunks himage hlen hsum
    refine ⟨p ++ q, chunks, (append_assoc p q _).symm, himage, ?_, ?_, ?_, hchunks, hlen, hsum⟩
    · rwa [← headerFits_take, ← hpref]
    · rw [le16_append q (by omega), length_append]
      omega
    · rw [le32_append q (by omega), hcount]
  · rintro ⟨header, chunks, h⟩
    have hsize := h.limits.header
    have hlen := h.headerSize
    have h8 : le16 (header.take 28) 8 = le16 header 8 := le16_take (by omega)
    have h20 : le32 (header.take 28) 20 = le32 header 20 := le32_take (by omega)
    refine ⟨header.take 28, header.drop 28 ++ chunks.flatMap fun c => c.header ++ c.payload,
      ⟨length_take_of_le (by omega), ?_⟩, (headerFits_take bytes header).mpr h.limits, header.drop 28, _,
      ⟨?_, rfl⟩, ?_⟩
    · rw [← append_assoc, take_append_drop, h.encoding]
    · rw [length_drop, h8, hlen]
    · rw [format_take, h20]
      refine (tail_eq_some_iff h.limits.chunkHeader.1).mpr ⟨chunks, h.count, h.wellFormed, rfl, ?_, h.size, h.checksum⟩
      rw [nil_append, h.expansion]

end AeraRecovery.ImageZip
