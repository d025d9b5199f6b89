import AeraRecovery.Verifier.Asn1

namespace AeraRecovery.Verifier

open Lib Bytes List Option UInt8

/-- A length in the short form, or in a long form of at most seven octets. -/
inductive LengthField : Nat → Bytes → Prop
  | short {n : UInt8} (h : n < 128) : LengthField n.toNat [n]
  | long {octets : Bytes} (h : octets.length < 8) :
      LengthField (octets.foldl (fun n b => n * 2 ^ 8 + b.toNat) 0) (ofNat (128 + octets.length) :: octets)

structure Element where
  tag : UInt8
  length : Bytes
  content : Bytes
  fits : LengthField content.length length

def Element.bytes (e : Element) : Bytes := e.tag :: (e.length ++ e.content)

/-- The documented shape. What is skipped may have any tag; `others` and `unsigned` follow the first signer and its
signature. -/
structure SignedData where
  (pkcs7 contentType app data version digests info signers signer : Element)
  (signerVersion signerId digest algorithm signature : Element)
  optional : List Element
  (others unsigned : Bytes)
  pkcs7_eq : pkcs7.tag = 0x30 ∧ pkcs7.content = contentType.bytes ++ app.bytes
  app_eq : app.tag = 0xA0 ∧ app.content = data.bytes
  data_eq : data.tag = 0x30 ∧
    data.content = version.bytes ++ (digests.bytes ++ (info.bytes ++ (optional.flatMap Element.bytes ++ signers.bytes)))
  optional_tag : ∀ e ∈ optional, e.tag = 0xA0 ∨ e.tag = 0xA1
  signers_eq : signers.tag = 0x31 ∧ signers.content = signer.bytes ++ others
  signer_eq : signer.tag = 0x30 ∧ signer.content =
    signerVersion.bytes ++ (signerId.bytes ++ (digest.bytes ++ (algorithm.bytes ++ (signature.bytes ++ unsigned))))
  signature_tag : signature.tag = 0x04

/-- The range of a context is a part of the range of another. -/
structure Context.Inside (c d : Context) : Prop where
  start : d.p ≤ c.p
  stop : c.p + c.length ≤ d.p + d.length

namespace Context.Inside

theorem refl (c : Context) : c.Inside c := ⟨le_refl _, le_refl _⟩

theorem trans {c d e : Context} (h : c.Inside d) (h' : d.Inside e) : c.Inside e :=
  ⟨h'.start.trans h.start, h.stop.trans h'.stop⟩

end Context.Inside

section

variable {der : Bytes} {c d : Context} {n : Nat}

theorem getByte_inside (h : getByte der d = some (n, c)) : c.Inside d := by
  rw [getByte] at h
  split_ifs at h with hempty
  cases h
  exact ⟨by dsimp only; omega, by dsimp only; omega⟩

theorem skipBytes_inside (h : skipBytes n d = some c) : c.Inside d := by
  rw [skipBytes] at h
  split_ifs at h with hshort
  cases h
  exact ⟨by dsimp only; omega, by dsimp only; omega⟩

theorem decodeOctets_inside {k m : Nat} (h : decodeOctets der k m d = some (n, c)) : c.Inside d := by
  induction k generalizing m d with
  | zero =>
    cases h
    exact .refl _
  | succ k ih =>
    obtain ⟨⟨b, d'⟩, hb, h⟩ := bind_eq_some_iff.mp h
    exact (ih h).trans (getByte_inside hb)

theorem decodeLength_inside (h : decodeLength der d = some (n, c)) : c.Inside d := by
  obtain ⟨⟨b, d'⟩, hb, h⟩ := bind_eq_some_iff.mp h
  refine Context.Inside.trans ?_ (getByte_inside hb)
  dsimp only at h
  split_ifs at h
  · cases h
    exact .refl _
  · cases h
  · exact decodeOctets_inside h

theorem contents_inside {tag : Nat → Bool} (h : contents der tag d = some c) : c.Inside d := by
  obtain ⟨⟨b, d₁⟩, hb, h⟩ := bind_eq_some_iff.mp h
  dsimp only at h
  split_ifs at h
  · cases h
  obtain ⟨⟨n, d₂⟩, hn, h⟩ := bind_eq_some_iff.mp h
  dsimp only at h
  split_ifs at h with hlong
  · cases h
  cases h
  have hhere : (⟨d₂.p, n⟩ : Context).Inside d₂ := ⟨le_refl _, by dsimp only; omega⟩
  exact hhere.trans ((decodeLength_inside hn).trans (getByte_inside hb))

theorem octetString_inside (h : asn1OctetStringGet der d = some c) : c.Inside d := by
  obtain ⟨octets, ho, h⟩ := bind_eq_some_iff.mp h
  split_ifs at h
  · cases h
  · cases h
    exact contents_inside ho

theorem next_inside (h : asn1SequenceNext der d = some c) : c.Inside d := by
  obtain ⟨⟨b, d₁⟩, hb, h⟩ := bind_eq_some_iff.mp h
  obtain ⟨⟨n, d₂⟩, hn, h⟩ := bind_eq_some_iff.mp h
  exact (skipBytes_inside h).trans ((decodeLength_inside hn).trans (getByte_inside hb))

theorem skipConstructed_inside (h : skipConstructed der n d = some c) : c.Inside d := by
  induction n generalizing d with
  | zero => cases h
  | succ fuel ih =>
    obtain ⟨⟨b, d₁⟩, hb, h⟩ := bind_eq_some_iff.mp h
    dsimp only at h
    split_ifs at h
    · obtain ⟨⟨n, d₂⟩, hn, h⟩ := bind_eq_some_iff.mp h
      obtain ⟨d₃, hskip, h⟩ := bind_eq_some_iff.mp h
      exact (ih h).trans ((skipBytes_inside hskip).trans ((decodeLength_inside hn).trans (getByte_inside hb)))
    · cases h
      exact .refl _

theorem findSignature_inside (h : findSignature der = some c) : c.Inside ⟨0, der.length⟩ := by
  simp only [findSignature, bind_eq_bind, bind_eq_some_iff] at h
  obtain ⟨c₁, h₁, c₂, h₂, c₃, h₃, c₄, h₄, c₅, h₅, c₆, h₆, c₇, h₇, c₈, h₈, c₉, h₉, d₁, i₁, d₂, i₂, d₃, i₃, d₄, i₄, d₅, i₅,
    h⟩ := h
  have hsigner := (octetString_inside h).trans ((next_inside i₅).trans ((next_inside i₄).trans
    ((next_inside i₃).trans (next_inside i₂))))
  have hset := hsigner.trans ((contents_inside i₁).trans ((contents_inside h₉).trans (skipConstructed_inside h₈)))
  have hdata := hset.trans ((next_inside h₇).trans ((next_inside h₆).trans (next_inside h₅)))
  exact hdata.trans ((contents_inside h₄).trans ((contents_inside h₃).trans
    ((next_inside h₂).trans (contents_inside h₁))))

end

/-- The context covers exactly the bytes `d` of the buffer. -/
def Covers (der : Bytes) (c : Context) (d : Bytes) : Prop :=
  ∃ before after, der = before ++ (d ++ after) ∧ c.p = before.length ∧ c.length = d.length

section

variable {der : Bytes} {c : Context} {d : Bytes}

theorem Covers.slice (h : Covers der c d) : der.slice c.p c.length = d := by
  obtain ⟨before, after, rfl, hp, hlength⟩ := h
  rw [slice, hp, hlength, drop_left, take_left]

theorem Covers.front {a : Bytes} (h : Covers der c (a ++ d)) : Covers der ⟨c.p, a.length⟩ a := by
  obtain ⟨before, after, rfl, hp, -⟩ := h
  exact ⟨before, d ++ after, by rw [append_assoc], hp, rfl⟩

theorem Covers.skip {a : Bytes} (h : Covers der c (a ++ d)) : Covers der ⟨c.p + a.length, c.length - a.length⟩ d := by
  obtain ⟨before, after, rfl, hp, hlength⟩ := h
  refine ⟨before ++ a, after, by simp only [append_assoc], by rw [length_append, hp], ?_⟩
  rw [hlength, length_append]
  exact Nat.add_sub_cancel_left _ _

theorem Covers.getByte {b : UInt8} (h : Covers der c (b :: d)) :
    ∃ c', getByte der c = some (b.toNat, c') ∧ Covers der c' d := by
  have hskip := h.skip (a := [b])
  obtain ⟨before, after, rfl, hp, hlength⟩ := h
  refine ⟨_, ?_, hskip⟩
  rw [Verifier.getByte, if_neg (by rw [hlength, length_cons]; omega), byte, hp]
  simp

theorem Covers.skipBytes {a : Bytes} (h : Covers der c (a ++ d)) :
    ∃ c', skipBytes a.length c = some c' ∧ Covers der c' d := by
  have hskip := h.skip
  obtain ⟨before, after, rfl, hp, hlength⟩ := h
  refine ⟨_, if_neg ?_, hskip⟩
  rw [hlength, length_append]
  omega

theorem Covers.decodeOctets {octets : Bytes} (n : Nat) (h : Covers der c (octets ++ d)) :
    ∃ c', decodeOctets der octets.length n c = some (octets.foldl (fun n b => n * 2 ^ 8 + b.toNat) n, c') ∧
      Covers der c' d := by
  induction octets generalizing c n with
  | nil => exact ⟨c, rfl, h⟩
  | cons b octets ih =>
    obtain ⟨c', hb, hc⟩ := Covers.getByte h
    obtain ⟨c'', hrest, hd⟩ := ih (n * 2 ^ 8 + b.toNat) hc
    refine ⟨c'', ?_, hd⟩
    rw [length_cons, Verifier.decodeOctets, hb]
    exact hrest

theorem Covers.decodeLength {n : Nat} {field : Bytes} (hfield : LengthField n field) (h : Covers der c (field ++ d)) :
    ∃ c', decodeLength der c = some (n, c') ∧ Covers der c' d := by
  cases hfield with
  | @short n hn =>
    obtain ⟨c', hb, hc⟩ := Covers.getByte h
    have hbit : ∀ n : UInt8, n < 128 → n.toNat &&& 0x80 = 0 := by decide +kernel
    refine ⟨c', ?_, hc⟩
    simp [Verifier.decodeLength, hb, hbit n hn]
  | @long octets hn =>
    have hbits : (128 + octets.length) &&& 0x80 ≠ 0 ∧ (128 + octets.length) &&& 0x7F = octets.length ∧
        (ofNat (128 + octets.length)).toNat = 128 + octets.length := by
      generalize octets.length = k at hn
      revert k
      decide
    obtain ⟨c', hb, hc⟩ := Covers.getByte h
    obtain ⟨c'', hrest, hd⟩ := Covers.decodeOctets 0 hc
    refine ⟨c'', ?_, hd⟩
    simp only [Verifier.decodeLength, hb, bind_eq_bind, bind_some, hbits, not_le.mpr hn, ge_iff_le, if_false, hrest]

variable {e : Element}

theorem Covers.contents (tag : Nat → Bool) (htag : tag e.tag.toNat = true) (h : Covers der c (e.bytes ++ d)) :
    ∃ c', contents der tag c = some c' ∧ Covers der c' e.content := by
  rw [Element.bytes, cons_append, append_assoc] at h
  obtain ⟨c₁, hb, h⟩ := h.getByte
  obtain ⟨c₂, hn, h⟩ := h.decodeLength e.fits
  have hlength : e.content.length ≤ c₂.length := by
    obtain ⟨-, -, -, -, hlength⟩ := h
    rw [hlength, length_append]
    exact Nat.le_add_right _ _
  refine ⟨_, ?_, h.front⟩
  simp [Verifier.contents, hb, hn, htag, hlength]

theorem Covers.next (h : Covers der c (e.bytes ++ d)) : ∃ c', asn1SequenceNext der c = some c' ∧ Covers der c' d := by
  rw [Element.bytes, cons_append, append_assoc] at h
  obtain ⟨c₁, hb, h⟩ := h.getByte
  obtain ⟨c₂, hn, h⟩ := h.decodeLength e.fits
  obtain ⟨c₃, hskip, h⟩ := h.skipBytes
  refine ⟨c₃, ?_, h⟩
  simp [asn1SequenceNext, hb, hn, hskip]

theorem length_le_flatMap (l : List Element) : l.length ≤ (l.flatMap Element.bytes).length := by
  induction l with
  | nil => exact Nat.le_refl 0
  | cons e l ih =>
    simp only [flatMap_cons, length_append, length_cons, Element.bytes]
    omega

theorem Covers.skipConstructed {l : List Element} (hl : ∀ o ∈ l, o.tag = 0xA0 ∨ o.tag = 0xA1) (he : e.tag = 0x31)
    {fuel : Nat} (hfuel : l.length < fuel) (h : Covers der c (l.flatMap Element.bytes ++ (e.bytes ++ d))) :
    ∃ c', skipConstructed der fuel c = some c' ∧ Covers der c' (e.bytes ++ d) := by
  induction l generalizing c fuel with
  | nil =>
    obtain ⟨fuel, rfl⟩ := Nat.exists_eq_add_of_lt hfuel
    refine ⟨c, ?_, h⟩
    rw [flatMap_nil, nil_append, Element.bytes, cons_append] at h
    obtain ⟨c', hb, -⟩ := h.getByte
    simp [Verifier.skipConstructed, hb, he]
  | cons o l ih =>
    obtain ⟨ho, hl⟩ := forall_mem_cons.mp hl
    obtain ⟨fuel, rfl⟩ : ∃ k, fuel = k + 1 := ⟨fuel - 1, by omega⟩
    have htag : o.tag.toNat &&& 0xE0 = 0xA0 := by rcases ho with ho | ho <;> rw [ho] <;> rfl
    rw [flatMap_cons, append_assoc, Element.bytes, cons_append, append_assoc] at h
    obtain ⟨c₁, hb, h⟩ := h.getByte
    obtain ⟨c₂, hn, h⟩ := h.decodeLength o.fits
    obtain ⟨c₃, hskip, h⟩ := h.skipBytes
    obtain ⟨c₄, hrest, h⟩ := ih hl (Nat.lt_of_succ_lt_succ hfuel) h
    refine ⟨c₄, ?_, h⟩
    simp [Verifier.skipConstructed, hb, hn, hskip, htag, hrest]

theorem Covers.skipAll {l : List Element} (hl : ∀ o ∈ l, o.tag = 0xA0 ∨ o.tag = 0xA1) (he : e.tag = 0x31)
    (h : Covers der c (l.flatMap Element.bytes ++ (e.bytes ++ d))) :
    ∃ c', asn1ConstructedSkipAll der c = some c' ∧ Covers der c' (e.bytes ++ d) := by
  refine h.skipConstructed hl he (Nat.lt_succ_of_le ?_)
  obtain ⟨-, -, -, -, hlength⟩ := h
  rw [hlength, length_append]
  exact (length_le_flatMap l).trans (Nat.le_add_right _ _)

end

/-- Where `read_pkcs7` finds the signature of a well-formed message. -/
theorem findSignature_covers (p : SignedData) : ∃ c, Covers p.pkcs7.bytes c p.signature.content ∧
    findSignature p.pkcs7.bytes = if p.signature.content = [] then none else some c := by
  have hseq {e : Element} (h : e.tag = 0x30) : decide (e.tag.toNat &&& 0x7F = 0x30) = true := by rw [h]; rfl
  have hstart : Covers p.pkcs7.bytes ⟨0, p.pkcs7.bytes.length⟩ (p.pkcs7.bytes ++ []) :=
    ⟨[], [], by simp only [append_nil, nil_append], rfl, by rw [append_nil]⟩
  obtain ⟨c₁, h₁, h⟩ := hstart.contents (fun byte => byte &&& 0x7F = 0x30) (hseq p.pkcs7_eq.1)
  rw [p.pkcs7_eq.2, ← append_nil p.app.bytes] at h
  obtain ⟨c₂, h₂, h⟩ := h.next
  obtain ⟨c₃, h₃, h⟩ := h.contents (fun type => type &&& 0xE0 = 0xA0) (by rw [p.app_eq.1]; rfl)
  rw [p.app_eq.2, ← append_nil p.data.bytes] at h
  obtain ⟨c₄, h₄, h⟩ := h.contents (fun byte => byte &&& 0x7F = 0x30) (hseq p.data_eq.1)
  rw [p.data_eq.2] at h
  obtain ⟨c₅, h₅, h⟩ := h.next
  obtain ⟨c₆, h₆, h⟩ := h.next
  obtain ⟨c₇, h₇, h⟩ := h.next
  rw [← append_nil p.signers.bytes] at h
  obtain ⟨c₈, h₈, h⟩ := h.skipAll p.optional_tag p.signers_eq.1
  obtain ⟨c₉, h₉, h⟩ := h.contents (fun byte => byte &&& 0x7F = 0x31) (by rw [p.signers_eq.1]; rfl)
  rw [p.signers_eq.2] at h
  obtain ⟨d₁, i₁, h⟩ := h.contents (fun byte => byte &&& 0x7F = 0x30) (hseq p.signer_eq.1)
  rw [p.signer_eq.2] at h
  obtain ⟨d₂, i₂, h⟩ := h.next
  obtain ⟨d₃, i₃, h⟩ := h.next
  obtain ⟨d₄, i₄, h⟩ := h.next
  obtain ⟨d₅, i₅, h⟩ := h.next
  obtain ⟨d₆, i₆, h⟩ := h.contents (fun byte => byte = 0x04) (by rw [p.signature_tag]; rfl)
  have hempty : d₆.length = 0 ↔ p.signature.content = [] := by
    obtain ⟨-, -, -, -, hlength⟩ := h
    rw [hlength, length_eq_zero_iff]
  refine ⟨d₆, h, ?_⟩
  simp only [findSignature, asn1SequenceGet, asn1ConstructedGet, asn1SetGet, asn1OctetStringGet, bind_eq_bind, bind_some,
    h₁, h₂, h₃, h₄, h₅, h₆, h₇, h₈, h₉, i₁, i₂, i₃, i₄, i₅, i₆, hempty]
  split_ifs <;> rfl

/-- Every context covers a part of the range of the one it is made from, so that the signature is a part of the buffer,
and a nonempty signature is found. -/
theorem readPkcs7_signature (der : Bytes) :
    (∀ d c, asn1SequenceGet der d = some c ∨ asn1SetGet der d = some c ∨ asn1ConstructedGet der d = some c ∨
      asn1OctetStringGet der d = some c ∨ asn1SequenceNext der d = some c ∨ asn1ConstructedSkipAll der d = some c →
      c.Inside d) ∧
    (∀ signature, readPkcs7 der = some signature →
      ∃ start length, start + length ≤ der.length ∧ signature.length = length ∧ signature = der.slice start length) ∧
    ∀ p : SignedData, p.pkcs7.bytes = der →
      readPkcs7 der = if p.signature.content = [] then none else some p.signature.content := by
  refine ⟨?_, fun signature h => ?_, ?_⟩
  · rintro d c (h | h | h | h | h | h)
    · exact contents_inside h
    · exact contents_inside h
    · exact contents_inside h
    · exact octetString_inside h
    · exact next_inside h
    · exact skipConstructed_inside h
  · obtain ⟨c, hc, rfl⟩ := map_eq_some_iff.mp h
    have hinside := (findSignature_inside hc).stop
    rw [zero_add] at hinside
    exact ⟨c.p, c.length, hinside, length_slice hinside, rfl⟩
  · rintro p rfl
    obtain ⟨c, hc, hfind⟩ := findSignature_covers p
    rw [readPkcs7, hfind]
    split_ifs
    · rfl
    · rw [map_some, hc.slice]

def nest (tag : UInt8) (content : Bytes) (h : content.length < 128) : Element where
  tag
  length := [.ofNat content.length]
  content
  fits := by
    have hn : (ofNat content.length).toNat = content.length := by
      rw [toNat_ofNat', Nat.mod_eq_of_lt (by omega)]
    have hfield := LengthField.short (n := .ofNat content.length) (by rwa [lt_iff_toNat_lt, hn])
    rwa [hn] at hfield

/-- Everything that is skipped is empty, as is the signature. -/
def emptySignature : SignedData :=
  let signature := nest 0x04 [] (by decide)
  let signer := nest 0x30 [5, 0, 5, 0, 5, 0, 5, 0, 4, 0] (by decide)
  let signers := nest 0x31 signer.bytes (by decide)
  let skipped := nest 0x05 [] (by decide)
  let data := nest 0x30 ([5, 0, 5, 0, 5, 0] ++ signers.bytes) (by decide)
  let app := nest 0xA0 data.bytes (by decide)
  ⟨nest 0x30 ([5, 0] ++ app.bytes) (by decide), skipped, app, data, skipped, skipped, skipped, signers, signer, skipped,
    skipped, skipped, skipped, signature, [], [], [], ⟨rfl, rfl⟩, ⟨rfl, rfl⟩, ⟨rfl, rfl⟩, nofun, ⟨rfl, rfl⟩, ⟨rfl, rfl⟩, rfl⟩

theorem empty_signature_refused :
    emptySignature.signature.content = [] ∧ readPkcs7 emptySignature.pkcs7.bytes = none := by
  decide

end AeraRecovery.Verifier
