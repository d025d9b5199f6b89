import AeraRecovery.Verifier.VerifyFile

namespace AeraRecovery.Verifier

open Lib Bytes Checks Commands Command Package List

namespace Package

variable (p : Package)

def commentSize : Nat := p.content.le16 (p.content.length - 2)

def signatureStart : Nat := p.content.le16 (p.content.length - 6)

def signedLen : Nat := p.content.length - p.commentSize - 2

def signature : Option Bytes :=
  readPkcs7 (p.content.slice (p.content.length - p.signatureStart) (p.signatureStart - 6))

structure LastMarker : Prop where
  room : p.commentSize + 22 ≤ p.content.length
  marker : marker p.content (p.content.length - p.commentSize - 22) = true
  last : ∀ i, p.content.length - p.commentSize - 22 < i → Verifier.marker p.content i = false

end Package

variable {R E : Type} {c : Crypto R E} {p : Package} {keys : List (Certificate R E)} {io : Io}

/-- What success should mean: a key has verified the signature against the digest of exactly the signed bytes, no
marker follows the one in front of them, and all reads were inside the package. -/
structure Authentic (c : Crypto R E) (p : Package) (keys : List (Certificate R E)) (io : Io) : Prop where
  signed : ∃ key ∈ keys, ∃ hash sigDer, key.hash = some hash ∧ p.signature = some sigDer ∧
    key.verifies c hash (io.fed hash) sigDer = true ∧ io.fed hash = p.content.take p.signedLen
  lastMarker : p.LastMarker
  inBounds : p.InBounds io

theorem byte_of_length_le {d : Bytes} {i : Nat} (h : d.length ≤ i) : d.byte i = 0 := by
  rw [byte, getD_eq_getElem?_getD, getElem?_eq_none h]
  rfl

theorem marker_iff {d : Bytes} {i : Nat} : marker d i = true ↔
    d.byte i = 0x50 ∧ d.byte (i + 1) = 0x4b ∧ d.byte (i + 2) = 0x05 ∧ d.byte (i + 3) = 0x06 := by
  simp only [marker, Bool.and_eq_true, decide_eq_true_eq, and_assoc]

theorem marker_slice {d : Bytes} {i n k : Nat} (h : k + 4 ≤ n) : marker (d.slice i n) k = marker d (i + k) := by
  rw [marker, marker, byte_slice (by omega), byte_slice (by omega), byte_slice (by omega), byte_slice (by omega)]
  rfl

theorem lastMarker_of_scan (hroom : p.commentSize + 22 ≤ p.content.length)
    (hfirst : marker (p.content.slice (p.content.length - (p.commentSize + 22)) (p.commentSize + 22)) 0 = true)
    (hscan : ((range' 4 (p.commentSize + 22 - 7)).all fun i =>
      !marker (p.content.slice (p.content.length - (p.commentSize + 22)) (p.commentSize + 22)) i) = true) :
    p.LastMarker := by
  rw [marker_slice (by omega), add_zero, ← Nat.sub_sub] at hfirst
  refine ⟨hroom, hfirst, fun i hi => Bool.eq_false_iff.mpr fun hmarker => ?_⟩
  obtain ⟨-, h1, h2, h3⟩ := marker_iff.mp hfirst
  obtain ⟨h4, -, -, h7⟩ := marker_iff.mp hmarker
  obtain ⟨k, hk⟩ : ∃ k, i = p.content.length - p.commentSize - 22 + k := ⟨_, (Nat.add_sub_cancel' hi.le).symm⟩
  have hend : i + 3 < p.content.length := by
    by_contra hge
    rw [byte_of_length_le (by omega)] at h7
    cases h7
  rcases lt_or_ge k 4 with hlt | hge
  · rw [hk] at h4
    obtain rfl | rfl | rfl : k = 1 ∨ k = 2 ∨ k = 3 := by omega
    all_goals omega
  · have hno := all_eq_true.mp hscan k (mem_range'_1.mpr ⟨hge, by omega⟩)
    rw [marker_slice (by omega), ← Nat.sub_sub, ← hk, hmarker] at hno
    cases hno

structure Reading (p : Package) (n : Nat) (io : Io) : Prop where
  inBounds : p.InBounds io
  reads : io.reads = n
  fed : ∀ hash, io.fed hash = []

theorem triple_read {byteCount offset n : Nat} (e : Failure) (hin : offset + byteCount ≤ p.content.length) :
    Triple (Reading p n) (read p byteCount offset e)
      (fun bytes io => bytes = p.content.slice offset byteCount ∧ Reading p (n + 1) io)
      fun _ io => p.InBounds io := by
  intro io hio
  have hask := hio.inBounds.ask hin
  have hstart : (read p byteCount offset e).start io =
      ((p.readFullyAtOffset byteCount offset io).1.elim (.error e) .ok,
        (p.readFullyAtOffset byteCount offset io).2) := rfl
  rw [hstart, readFullyAtOffset_eq hin]
  cases p.delivers io.reads with
  | false => exact hask
  | true =>
    refine ⟨rfl, hask, congrArg (· + 1) hio.reads, fun hash => ?_⟩
    cases hash with
    | sha1 => exact hio.fed .sha1
    | sha256 => exact hio.fed .sha256

structure Accepted (c : Crypto R E) (p : Package) (keys : List (Certificate R E)) (io : Io) : Prop where
  lastMarker : p.LastMarker
  inBounds : p.InBounds io
  feeds : ∃ io₀, Reading p 2 io₀ ∧ p.Feeds (hashers keys) io₀ io 0 p.signedLen
  key : ∃ sigDer, p.signature = some sigDer ∧ (keys.any fun key => key.matches c io sigDer) = true

theorem triple_verifyFile (c : Crypto R E) (p : Package) (keys : List (Certificate R E)) :
    Triple (fun io => io = {}) (verifyFile c p keys) (fun _ => Accepted c p keys) fun _ io => p.InBounds io := by
  have hstart : ∀ io : Io, io = {} → Reading p 0 io := by
    rintro _ rfl
    exact ⟨fun _ hr => absurd hr not_mem_nil, rfl, fun hash => by cases hash <;> rfl⟩
  refine Triple.mono (P := Reading p 0) ?_ hstart (fun _ _ h => h) fun _ _ h => h
  refine triple_check (fun hfooter => ?_) fun _ _ h => h.inBounds
  refine triple_bind (triple_read .readFooter (by omega)) fun footer => triple_and ?_
  rintro rfl
  refine triple_check (fun _ => ?_) fun _ _ h => h.inBounds
  have hcomment : (p.content.slice (p.content.length - 6) 6).le16 4 = p.commentSize := by
    rw [le16_slice (by omega), commentSize]
    congr 1
    omega
  have hsignature : (p.content.slice (p.content.length - 6) 6).le16 0 = p.signatureStart := le16_slice (by omega)
  rw [hcomment, hsignature]
  refine triple_check (fun hstart => ?_) fun _ _ h => h.inBounds
  refine triple_check (fun hpositive => ?_) fun _ _ h => h.inBounds
  refine triple_check (fun hroom => ?_) fun _ _ h => h.inBounds
  refine triple_bind (triple_read .readEocd (by omega)) fun eocd => triple_and ?_
  rintro rfl
  refine triple_check (fun hfirst => ?_) fun _ _ h => h.inBounds
  refine triple_check (fun hscan => ?_) fun _ _ h => h.inBounds
  have hlast := lastMarker_of_scan hroom hfirst hscan
  have hsigned : p.content.length - (p.commentSize + 22) + 22 - 2 = p.signedLen := by
    rw [signedLen]
    omega
  rw [hsigned]
  refine triple_bind (R := fun _ io => p.InBounds io ∧ ∃ io₀, Reading p 2 io₀ ∧
    p.Feeds (hashers keys) io₀ io 0 p.signedLen) (triple_modify fun io hio => ?_) fun _ => ?_
  · have hle : p.signedLen ≤ p.content.length := by
      omega
    obtain ⟨hbounds, hfeeds⟩ := hashSigned_feeds (h := hashers keys) hio.inBounds (Nat.zero_le p.signedLen) hle le_rfl
    exact ⟨hbounds, io, hio, hfeeds⟩
  refine triple_try (fun sigDer hsig => triple_get fun io hio => ?_) fun _ _ _ hio => hio.1
  have hstart' : p.content.length - (p.commentSize + 22) + (p.commentSize + 22 - p.signatureStart) =
      p.content.length - p.signatureStart := by omega
  rw [require_ok_iff, slice_slice (by omega), hstart'] at hsig
  refine triple_ofExcept (fun _ io' hany hio' => ?_) fun _ io' _ hio' => ?_
  · subst hio'
    exact ⟨hlast, hio.1, hio.2, sigDer, hsig, ensure_ok_iff.mp hany⟩
  · subst hio'
    exact hio.1

theorem uses_of_mem {key : Certificate R E} {hash : Hash} (hkey : key ∈ keys) (hhash : key.hash = some hash) :
    (hashers keys).uses hash = true := by
  rw [Certificate.hash] at hhash
  split_ifs at hhash with h20 h32
  · obtain rfl := Option.some.inj hhash
    exact any_eq_true.mpr ⟨key, hkey, decide_eq_true h20⟩
  · obtain rfl := Option.some.inj hhash
    exact any_eq_true.mpr ⟨key, hkey, decide_eq_true h32⟩

theorem Accepted.authentic_iff (h : Accepted c p keys io) : Authentic c p keys io ↔ p.AllDelivered 2 p.signedLen := by
  obtain ⟨io₀, hreading, hfeeds⟩ := h.feeds
  rw [Feeds, hreading.reads] at hfeeds
  constructor
  · rintro ⟨⟨key, hkey, hash, -, hhash, -, -, hexact⟩, -, -⟩
    obtain ⟨bytes, hfed, -, -, hfull⟩ := hfeeds hash (uses_of_mem hkey hhash)
    rw [hreading.fed, nil_append] at hfed
    apply hfull
    rw [← hfed, hexact, length_take, signedLen]
    omega
  · intro hall
    obtain ⟨sigDer, hsig, hany⟩ := h.key
    obtain ⟨key, hkey, hmatches⟩ := any_eq_true.mp hany
    refine ⟨?_, h.lastMarker, h.inBounds⟩
    rw [Certificate.matches] at hmatches
    split at hmatches
    · next hash hhash =>
      obtain ⟨bytes, hfed, -, hexact, -⟩ := hfeeds hash (uses_of_mem hkey hhash)
      rw [hreading.fed, nil_append, hexact hall, slice, drop_zero] at hfed
      exact ⟨key, hkey, hash, sigDer, hhash, hsig, hmatches, hfed⟩
    · cases hmatches

/-- No run asks for bytes outside the package. A run that succeeds is authentic if and only if the reads of all chunks
of the signed bytes succeed. -/
theorem verifyFile_authentic_iff (c : Crypto R E) (p : Package) (keys : List (Certificate R E)) :
    p.InBounds ((verifyFile c p keys).start {}).2 ∧ (((verifyFile c p keys).start {}).1 = .ok () →
        (Authentic c p keys ((verifyFile c p keys).start {}).2 ↔ p.AllDelivered 2 p.signedLen)) := by
  have htriple := triple_verifyFile c p keys {} rfl
  revert htriple
  rcases (verifyFile c p keys).start {} with ⟨e | u, io⟩
  · intro hbounds
    exact ⟨hbounds, nofun⟩
  · intro haccepted
    exact ⟨haccepted.inBounds, fun _ => haccepted.authentic_iff⟩

/-- A package of 57 bytes with a signature in a comment of 35 bytes. -/
def signedPackage (reads : Nat → Bool) : Package where
  type := .file
  content := [0x50, 0x4b, 0x05, 0x06] ++ replicate 16 1 ++ [35, 0] ++
    [0x30, 27, 6, 0, 0xA0, 23, 0x30, 21, 2, 0, 2, 0, 2, 0, 0x31, 13, 0x30, 11, 2, 0, 2, 0, 2, 0, 2, 0, 4, 1, 42] ++
    [35, 0, 0xff, 0xff, 35, 0]
  reads

def signerOf (message : Bytes) : Crypto Unit Unit where
  digest _ bytes := bytes
  rsaVerify _ digest sigDer _ := digest = message && sigDer = [42]
  ecdsaVerify _ _ _ := false

def rsaKey : Certificate Unit Unit := ⟨20, .rsa, (), ()⟩

theorem verifyFile_authentic_signedPackage :
    let p := signedPackage fun _ => true
    let c := signerOf (p.content.take 20)
    ((verifyFile c p [rsaKey]).start {}).1 = .ok () ∧
      Authentic c p [rsaKey] ((verifyFile c p [rsaKey]).start {}).2 := by
  refine ⟨rfl, ((verifyFile_authentic_iff _ _ _).2 rfl).mpr fun i _ => ?_⟩
  rfl

/-- The signature of the empty message is accepted for a package whose signed bytes cannot be read. -/
theorem verifyFile_accepts_unread :
    let p := signedPackage fun n => n < 2
    let c := signerOf []
    ((verifyFile c p [rsaKey]).start {}).1 = .ok () ∧
      ¬ Authentic c p [rsaKey] ((verifyFile c p [rsaKey]).start {}).2 := by
  refine ⟨rfl, fun h => ?_⟩
  obtain ⟨key, -, hash, sigDer, -, -, -, hexact⟩ := h.signed
  have hlength := congrArg length hexact
  cases hash with
  | sha1 | sha256 => exact absurd hlength (by decide)

end AeraRecovery.Verifier
