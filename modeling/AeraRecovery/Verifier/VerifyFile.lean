import AeraRecovery.Lib.Commands
import AeraRecovery.Verifier.Asn1

namespace AeraRecovery.Verifier

open Lib Bytes Checks Commands Command List Nat

inductive PackageType
  | memory
  | file
  deriving DecidableEq

structure Package where
  type : PackageType
  content : Bytes
  reads : Nat → Bool

/-- The effects of a run: the ranges asked of the package, the number of reads, and the bytes fed to each hash. -/
structure Io where
  asked : List (Nat × Nat) := []
  reads : Nat := 0
  sha1Ctx : Bytes := []
  sha256Ctx : Bytes := []

inductive Hash
  | sha1
  | sha256
  deriving DecidableEq

structure Hashers where
  needSha1 : Bool
  needSha256 : Bool

def Hashers.uses (h : Hashers) : Hash → Bool
  | .sha1 => h.needSha1
  | .sha256 => h.needSha256

def Io.update (io : Io) (h : Hashers) (bytes : Bytes) : Io :=
  { io with
    sha1Ctx := if h.needSha1 then io.sha1Ctx ++ bytes else io.sha1Ctx
    sha256Ctx := if h.needSha256 then io.sha256Ctx ++ bytes else io.sha256Ctx }

def chunk : Nat := 16 * (1024 * 1024)

namespace Package

variable (p : Package)

def delivers (n : Nat) : Bool := p.type = .memory || p.reads n

variable (byteCount offset : Nat)

def ask (io : Io) : Io := { io with asked := io.asked ++ [(offset, byteCount)] }

def outOfBound : Prop :=
  byteCount > p.content.length ∨ offset > p.content.length - byteCount

instance (byteCount offset : Nat) : Decidable (p.outOfBound byteCount offset) := inferInstanceAs (Decidable (_ ∨ _))

def readFullyAtOffset (io : Io) : Option Bytes × Io :=
  let io := ask byteCount offset io
  if p.outOfBound byteCount offset then (none, io)
  else
    (if p.delivers io.reads then some (p.content.slice offset byteCount) else none, { io with reads := io.reads + 1 })

def hashFile (h : Hashers) (start length : Nat) : Nat → Nat → Io → Bool × Io
  | 0, _, io => (true, io)
  | fuel + 1, soFar, io =>
    if soFar < length then
      let readSize := min (length - soFar) chunk
      match p.readFullyAtOffset readSize (start + soFar) io with
      | (none, io) => (false, io)
      | (some buffer, io) => hashFile h start length fuel (soFar + readSize) (io.update h buffer)
    else (true, io)

def updateHashAtOffset (h : Hashers) (start length : Nat) (io : Io) : Bool × Io :=
  let io := ask length start io
  if p.outOfBound length start then (false, io)
  else
    match p.type with
    | .memory => (true, { io with reads := io.reads + 1 }.update h (p.content.slice start length))
    | .file => p.hashFile h start length length 0 io

/-- The loop that feeds the signed bytes. It does not look at what `UpdateHashAtOffset` returns. -/
def hashSigned (h : Hashers) (signedLen : Nat) : Nat → Nat → Io → Io
  | 0, _, io => io
  | fuel + 1, soFar, io =>
    if soFar < signedLen then
      let readSize := min (signedLen - soFar) chunk
      hashSigned h signedLen fuel (soFar + readSize) (p.updateHashAtOffset h soFar readSize io).2
    else io

end Package

inductive KeyType
  | rsa
  | ec
  deriving DecidableEq

structure Certificate (R E : Type) where
  hashLen : Int
  keyType : KeyType
  rsa : R
  ec : E

structure Crypto (R E : Type) where
  digest : Hash → Bytes → Bytes
  rsaVerify : Hash → Bytes → Bytes → R → Bool
  ecdsaVerify : Bytes → Bytes → E → Bool

def Io.fed (io : Io) : Hash → Bytes
  | .sha1 => io.sha1Ctx
  | .sha256 => io.sha256Ctx

inductive Failure
  | noFooter
  | readFooter
  | footer
  | signatureStart
  | signatureInFooter
  | noEocd
  | readEocd
  | eocdMarker
  | laterMarker
  | noSignature
  | noKey
  deriving DecidableEq

section

variable {R E : Type} (c : Crypto R E) (p : Package) (keys : List (Certificate R E))

def hashers : Hashers where
  needSha1 := keys.any fun key => key.hashLen = 20
  needSha256 := keys.any fun key => key.hashLen = 32

variable (key : Certificate R E)

def Certificate.hash : Option Hash :=
  if key.hashLen = 20 then some .sha1 else if key.hashLen = 32 then some .sha256 else none

def Certificate.verifies (hash : Hash) (bytes sigDer : Bytes) : Bool :=
  match key.keyType with
  | .rsa => c.rsaVerify hash (c.digest hash bytes) sigDer key.rsa
  | .ec => hash = .sha256 && c.ecdsaVerify (c.digest hash bytes) sigDer key.ec

def Certificate.matches (io : Io) (sigDer : Bytes) : Bool :=
  match key.hash with
  | some hash => key.verifies c hash (io.fed hash) sigDer
  | none => false

def marker (d : Bytes) (i : Nat) : Bool :=
  d.byte i = 0x50 && d.byte (i + 1) = 0x4b && d.byte (i + 2) = 0x05 && d.byte (i + 3) = 0x06

def demand (b : Prop) [Decidable b] (e : Failure) : Command Failure Io Unit := ofExcept (ensure b e)

def read (byteCount offset : Nat) (e : Failure) : Command Failure Io Bytes :=
  ExceptT.mk fun io => ((p.readFullyAtOffset byteCount offset io).1.elim (.error e) .ok,
    (p.readFullyAtOffset byteCount offset io).2)

def verifyFile : Command Failure Io Unit := do
  let length := p.content.length
  demand (6 ≤ length) .noFooter
  let footer ← read p 6 (length - 6) .readFooter
  demand (footer.byte 2 = 0xff ∧ footer.byte 3 = 0xff) .footer
  let commentSize := footer.le16 4
  let signatureStart := footer.le16 0
  demand (signatureStart ≤ commentSize) .signatureStart
  demand (6 < signatureStart) .signatureInFooter
  let eocdSize := commentSize + 22
  demand (eocdSize ≤ length) .noEocd
  let signedLen := length - eocdSize + 22 - 2
  let eocd ← read p eocdSize (length - eocdSize) .readEocd
  demand (marker eocd 0) .eocdMarker
  demand ((range' 4 (eocdSize - 7)).all fun i => !marker eocd i) .laterMarker
  modify (p.hashSigned (hashers keys) signedLen signedLen 0)
  let sigDer ← ofExcept (require (readPkcs7 (eocd.slice (eocdSize - signatureStart) (signatureStart - 6)))
    .noSignature)
  let io ← get
  demand (keys.any fun key => key.matches c io sigDer) .noKey

end

namespace Package

variable {p : Package} {h : Hashers} {io : Io}

/-- The requests of a run up to `io` lie inside the package. -/
def InBounds (p : Package) (io : Io) : Prop := ∀ r ∈ io.asked, r.1 + r.2 ≤ p.content.length

variable {byteCount offset : Nat}

theorem InBounds.ask (hio : p.InBounds io) (hin : offset + byteCount ≤ p.content.length) :
    p.InBounds (ask byteCount offset io) := by
  intro r hr
  rcases mem_append.mp hr with hr | hr
  · exact hio r hr
  · rw [mem_singleton.mp hr]
    exact hin

theorem not_outOfBound (hin : offset + byteCount ≤ p.content.length) : ¬ p.outOfBound byteCount offset := by
  rw [outOfBound]
  omega

theorem readFullyAtOffset_eq (hin : offset + byteCount ≤ p.content.length) : p.readFullyAtOffset byteCount offset io =
      (if p.delivers io.reads then some (p.content.slice offset byteCount) else none,
        { ask byteCount offset io with reads := io.reads + 1 }) := by
  rw [readFullyAtOffset, if_neg (not_outOfBound hin)]
  rfl

theorem hashFile_done (start length fuel : Nat) : p.hashFile h start length fuel length io = (true, io) := by
  cases fuel with
  | zero => rfl
  | succ fuel => rw [hashFile, if_neg (lt_irrefl length)]

theorem updateHashAtOffset_spec {start length : Nat} (hio : p.InBounds io) (hpos : 0 < length)
    (hlength : length ≤ chunk) (hin : start + length ≤ p.content.length) :
    ∃ asked, p.InBounds { io with asked } ∧ (p.updateHashAtOffset h start length io).2 = if p.delivers io.reads then
        { io with asked, reads := io.reads + 1 }.update h (p.content.slice start length)
      else { io with asked, reads := io.reads + 1 } := by
  have hask := hio.ask hin
  rw [updateHashAtOffset]
  simp only [not_outOfBound hin, if_false]
  cases ht : p.type with
  | memory =>
    have hdelivers : p.delivers io.reads = true := by simp [delivers, ht]
    refine ⟨_, hask, ?_⟩
    rw [if_pos hdelivers]
    rfl
  | file =>
    refine ⟨_, hask.ask hin, ?_⟩
    obtain ⟨n, rfl⟩ := exists_eq_succ_of_ne_zero hpos.ne'
    rw [hashFile, if_pos hpos]
    simp only [Nat.sub_zero, min_eq_left hlength, add_zero, zero_add, readFullyAtOffset_eq hin]
    cases hd : p.delivers io.reads with
    | false => simp only [ask, hd, Bool.false_eq_true, if_false]
    | true => simp only [ask, hd, if_true, hashFile_done]

/-- The reads of the chunks of `n` bytes succeed, the first of them being read number `first`. -/
def AllDelivered (p : Package) (first n : Nat) : Prop := ∀ i, i * chunk < n → p.delivers (first + i) = true

theorem allDelivered_step {first n : Nat} (hn : 0 < n) :
    p.AllDelivered first n ↔ p.delivers first = true ∧ p.AllDelivered (first + 1) (n - min n chunk) := by
  constructor
  · intro hall
    refine ⟨hall 0 (by omega), fun i hi => ?_⟩
    rw [add_right_comm]
    refine hall (i + 1) ?_
    rw [succ_mul]
    omega
  · rintro ⟨hfirst, hrest⟩ i hi
    cases i with
    | zero => exact hfirst
    | succ i =>
      rw [succ_mul] at hi
      have hi' := hrest i (by omega)
      rwa [add_right_comm] at hi'

theorem fed_update {hash : Hash} (huse : h.uses hash = true) (bytes : Bytes) :
    (io.update h bytes).fed hash = io.fed hash ++ bytes := by
  cases hash with
  | sha1 | sha256 => exact if_pos huse

/-- From `io` to `io'` the hashes in use have seen the `n` bytes at `soFar`, or fewer when a chunk could not be read. -/
def Feeds (p : Package) (h : Hashers) (io io' : Io) (soFar n : Nat) : Prop :=
  ∀ hash, h.uses hash = true → ∃ bytes, io'.fed hash = io.fed hash ++ bytes ∧ bytes.length ≤ n ∧
    (p.AllDelivered io.reads n → bytes = p.content.slice soFar n) ∧
    (bytes.length = n → p.AllDelivered io.reads n)

theorem feeds_nothing (p : Package) (h : Hashers) (io : Io) (soFar : Nat) : p.Feeds h io io soFar 0 :=
  fun _ _ => ⟨[], (append_nil _).symm, le_refl 0, fun _ => rfl, fun _ _ hi => absurd hi (not_lt_zero _)⟩

theorem feeds_chunk {asked : List (Nat × Nat)} {io₁ io' : Io} {soFar n : Nat} (hn : 0 < n)
    (hin : soFar + n ≤ p.content.length) (hio₁ : io₁ = if p.delivers io.reads then
        { io with asked, reads := io.reads + 1 }.update h (p.content.slice soFar (min n chunk))
      else { io with asked, reads := io.reads + 1 })
    (hrest : p.Feeds h io₁ io' (soFar + min n chunk) (n - min n chunk)) : p.Feeds h io io' soFar n := by
  intro hash huse
  have hstep : p.AllDelivered io.reads n ↔ _ := allDelivered_step hn
  obtain ⟨k, hk⟩ : ∃ k, min n chunk = k := ⟨_, rfl⟩
  have hkn : 0 < k ∧ k ≤ n := by
    have : 0 < chunk := by decide
    omega
  rw [hk] at hrest hstep hio₁
  cases hd : p.delivers io.reads with
  | true =>
    rw [hd, if_pos rfl] at hio₁
    subst hio₁
    obtain ⟨bytes, hfed, hle, hall, hshort⟩ := hrest hash huse
    have hlen : (p.content.slice soFar k).length = k := length_slice (by omega)
    refine ⟨p.content.slice soFar k ++ bytes, ?_, ?_, fun hdelivered => ?_, fun hfull => ?_⟩
    · rw [hfed, fed_update huse, append_assoc]
      rfl
    · rw [length_append, hlen]
      omega
    · rw [hall (hstep.mp hdelivered).2, ← slice_add, Nat.add_sub_cancel' hkn.2]
    · rw [length_append, hlen] at hfull
      exact hstep.mpr ⟨hd, hshort (by omega)⟩
  | false =>
    rw [hd, if_neg Bool.false_ne_true] at hio₁
    subst hio₁
    obtain ⟨bytes, hfed, hle, -, -⟩ := hrest hash huse
    refine ⟨bytes, hfed, by omega, fun hdelivered => ?_, fun hfull => by omega⟩
    rw [(hstep.mp hdelivered).1] at hd
    cases hd

theorem hashSigned_feeds {signedLen fuel soFar : Nat} (hio : p.InBounds io) (hle : soFar ≤ signedLen)
    (hsigned : signedLen ≤ p.content.length) (hfuel : signedLen - soFar ≤ fuel) :
    p.InBounds (p.hashSigned h signedLen fuel soFar io) ∧
      p.Feeds h io (p.hashSigned h signedLen fuel soFar io) soFar (signedLen - soFar) := by
  induction fuel generalizing soFar io with
  | zero =>
    rw [le_zero.mp hfuel]
    exact ⟨hio, feeds_nothing p h io soFar⟩
  | succ fuel ih =>
    rw [hashSigned]
    split_ifs with hlt
    · have hpos : 0 < min (signedLen - soFar) chunk := by
        have : 0 < chunk := by decide
        omega
      obtain ⟨asked, hasked, hupdate⟩ := updateHashAtOffset_spec hio hpos (min_le_right _ _)
        (show soFar + min (signedLen - soFar) chunk ≤ p.content.length by omega)
      have hasked' : p.InBounds (p.updateHashAtOffset h soFar (min (signedLen - soFar) chunk) io).2 := by
        rw [hupdate]
        split_ifs <;> exact hasked
      have hnext : soFar + min (signedLen - soFar) chunk ≤ signedLen := by omega
      obtain ⟨hbounds, hrest⟩ := ih hasked' hnext (by omega)
      refine ⟨hbounds, feeds_chunk (by omega) (by omega) hupdate ?_⟩
      rwa [Nat.sub_sub]
    · rw [Nat.sub_eq_zero_of_le (by omega)]
      exact ⟨hio, feeds_nothing p h io soFar⟩

end Package

end AeraRecovery.Verifier
