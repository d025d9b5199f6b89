import AeraRecovery.Lib.Bytes

namespace AeraRecovery.Verifier

open Lib Bytes

/-- An `asn1_context`: where it stands in the buffer and how many bytes it has left. -/
structure Context where
  p : Nat
  length : Nat

section

variable (der : Bytes)

def getByte (c : Context) : Option (Nat × Context) :=
  if c.length = 0 then none else some (byte der c.p, ⟨c.p + 1, c.length - 1⟩)

def skipBytes (numSkip : Nat) (c : Context) : Option Context :=
  if c.length < numSkip then none else some ⟨c.p + numSkip, c.length - numSkip⟩

def decodeOctets : Nat → Nat → Context → Option (Nat × Context)
  | 0, length, c => some (length, c)
  | numOctets + 1, length, c => do
      let (byte, c) ← getByte der c
      decodeOctets numOctets (length * 2 ^ 8 + byte) c

def decodeLength (c : Context) : Option (Nat × Context) := do
  let (numOctets, c) ← getByte der c
  if numOctets &&& 0x80 = 0 then return (numOctets, c)
  if numOctets &&& 0x7F ≥ 8 then none
  decodeOctets der (numOctets &&& 0x7F) 0 c

def contents (tag : Nat → Bool) (c : Context) : Option Context := do
  let (byte, c) ← getByte der c
  if !tag byte then none
  let (length, c) ← decodeLength der c
  if length > c.length then none
  return ⟨c.p, length⟩

def asn1ConstructedGet : Context → Option Context := contents der fun type => type &&& 0xE0 = 0xA0

def asn1SequenceGet : Context → Option Context := contents der fun byte => byte &&& 0x7F = 0x30

def asn1SetGet : Context → Option Context := contents der fun byte => byte &&& 0x7F = 0x31

/-- Unlike the other getters this one refuses an empty element. -/
def asn1OctetStringGet (c : Context) : Option Context := do
  let octets ← contents der (fun byte => byte = 0x04) c
  if octets.length = 0 then none
  return octets

def asn1SequenceNext (c : Context) : Option Context := do
  let (_, c) ← getByte der c
  let (length, c) ← decodeLength der c
  skipBytes length c

def skipConstructed : Nat → Context → Option Context
  | 0, _ => none
  | fuel + 1, c => do
    let (byte, d) ← getByte der c
    if byte &&& 0xE0 = 0xA0 then
      let (length, d) ← decodeLength der d
      let d ← skipBytes length d
      skipConstructed fuel d
    else return c

def asn1ConstructedSkipAll (c : Context) : Option Context := skipConstructed der (c.length + 1) c

/-- Where the signature value of the first signer is. -/
def findSignature : Option Context := do
  let pkcs7Seq ← asn1SequenceGet der ⟨0, der.length⟩
  let pkcs7Seq ← asn1SequenceNext der pkcs7Seq
  let signedDataApp ← asn1ConstructedGet der pkcs7Seq
  let signedDataSeq ← asn1SequenceGet der signedDataApp
  let signedDataSeq ← asn1SequenceNext der signedDataSeq
  let signedDataSeq ← asn1SequenceNext der signedDataSeq
  let signedDataSeq ← asn1SequenceNext der signedDataSeq
  let signedDataSeq ← asn1ConstructedSkipAll der signedDataSeq
  let sigSet ← asn1SetGet der signedDataSeq
  let sigSeq ← asn1SequenceGet der sigSet
  let sigSeq ← asn1SequenceNext der sigSeq
  let sigSeq ← asn1SequenceNext der sigSeq
  let sigSeq ← asn1SequenceNext der sigSeq
  let sigSeq ← asn1SequenceNext der sigSeq
  asn1OctetStringGet der sigSeq

def readPkcs7 : Option Bytes := (findSignature der).map fun c => der.slice c.p c.length

end

end AeraRecovery.Verifier
