import AeraRecovery.Lib.Bytes

namespace AeraRecovery.Lib.Utf8

open Bytes String

def IsUtf8 (b : Bytes) : Prop := ∃ s : List Char, s.flatMap utf8EncodeChar = b

def Continuation (b : UInt8) : Prop := 128 ≤ b.toNat ∧ b.toNat ≤ 191

inductive Sequence : Bytes → Prop
  | one (a : UInt8) (ha : a.toNat ≤ 127) : Sequence [a]
  | two (a b : UInt8) (ha : 194 ≤ a.toNat ∧ a.toNat ≤ 223) (hb : Continuation b) : Sequence [a, b]
  | three (a b c : UInt8) (ha : 224 ≤ a.toNat ∧ a.toNat ≤ 239) (hb : Continuation b) (hc : Continuation c)
      (hshort : a.toNat = 224 → 160 ≤ b.toNat) (hsurrogate : a.toNat = 237 → b.toNat < 160) : Sequence [a, b, c]
  | four (a b c d : UInt8) (ha : 240 ≤ a.toNat ∧ a.toNat ≤ 244) (hb : Continuation b) (hc : Continuation c)
      (hd : Continuation d) (hshort : a.toNat = 240 → 144 ≤ b.toNat) (hlarge : a.toNat = 244 → b.toNat < 144) :
      Sequence [a, b, c, d]

theorem toNat_ofNatAux {v : Nat} (h : v.isValidChar) : (Char.ofNatAux v h).val.toNat = v := rfl

theorem ofNat_eq {b : UInt8} {v : Nat} (h : v = b.toNat) : UInt8.ofNat v = b := by
  rw [h, UInt8.ofNat_toNat]

theorem Sequence.exists_char {b : Bytes} (h : Sequence b) : ∃ c : Char, utf8EncodeChar c = b := by
  cases h with
  | one a ha =>
    refine ⟨.ofNatAux a.toNat (.inl (by omega)), ?_⟩
    simp only [utf8EncodeChar, toNat_ofNatAux, if_pos ha, UInt8.ofNat_toNat]
  | two a b ha hb =>
    obtain ⟨hb, hb'⟩ := hb
    refine ⟨.ofNatAux ((a.toNat - 192) * 64 + (b.toNat - 128)) (.inl (by omega)), ?_⟩
    simp only [utf8EncodeChar, toNat_ofNatAux]
    rw [if_neg (by omega), if_pos (by omega), ofNat_eq (b := a) (by omega), ofNat_eq (b := b) (by omega)]
  | three a b c ha hb hc hshort hsurrogate =>
    obtain ⟨hb, hb'⟩ := hb
    obtain ⟨hc, hc'⟩ := hc
    have hvalid : ((a.toNat - 224) * 4096 + (b.toNat - 128) * 64 + (c.toNat - 128)).isValidChar := by
      omega
    refine ⟨.ofNatAux _ hvalid, ?_⟩
    simp only [utf8EncodeChar, toNat_ofNatAux]
    rw [if_neg (by omega), if_neg (by omega), if_pos (by omega), ofNat_eq (b := a) (by omega),
      ofNat_eq (b := b) (by omega), ofNat_eq (b := c) (by omega)]
  | four a b c d ha hb hc hd hshort hlarge =>
    obtain ⟨hb, hb'⟩ := hb
    obtain ⟨hc, hc'⟩ := hc
    obtain ⟨hd, hd'⟩ := hd
    have hvalid : ((a.toNat - 240) * 262144 + (b.toNat - 128) * 4096 + (c.toNat - 128) * 64 +
        (d.toNat - 128)).isValidChar := by
      omega
    refine ⟨.ofNatAux _ hvalid, ?_⟩
    simp only [utf8EncodeChar, toNat_ofNatAux]
    rw [if_neg (by omega), if_neg (by omega), if_neg (by omega), ofNat_eq (b := a) (by omega),
      ofNat_eq (b := b) (by omega), ofNat_eq (b := c) (by omega), ofNat_eq (b := d) (by omega)]

theorem toNat_ofNat {v : Nat} (h : v < 256) : (UInt8.ofNat v).toNat = v := by
  exact Nat.mod_eq_of_lt h

theorem continuation_ofNat (v : Nat) : Continuation (UInt8.ofNat (v % 64 + 128)) := by
  rw [Continuation, toNat_ofNat (by omega)]
  omega

theorem sequence_encode (c : Char) : Sequence (utf8EncodeChar c) := by
  have hvalid : c.val.toNat < 55296 ∨ 57343 < c.val.toNat ∧ c.val.toNat < 1114112 := c.valid
  simp only [utf8EncodeChar]
  generalize c.val.toNat = v at hvalid
  by_cases h1 : v ≤ 127
  · rw [if_pos h1]
    exact .one _ (by rw [toNat_ofNat (by omega)]; exact h1)
  rw [if_neg h1]
  by_cases h2 : v ≤ 2047
  · rw [if_pos h2]
    refine .two _ _ ?_ (continuation_ofNat v)
    rw [toNat_ofNat (by omega)]
    omega
  rw [if_neg h2]
  by_cases h3 : v ≤ 65535
  · rw [if_pos h3]
    refine .three _ _ _ ?_ (continuation_ofNat _) (continuation_ofNat v) ?_ ?_
    all_goals
      simp only [toNat_ofNat (show v / 4096 % 16 + 224 < 256 by omega), toNat_ofNat (show v / 64 % 64 + 128 < 256 by omega)]
      omega
  · rw [if_neg h3]
    refine .four _ _ _ _ ?_ (continuation_ofNat _) (continuation_ofNat _) (continuation_ofNat v) ?_ ?_
    all_goals
      simp only [toNat_ofNat (show v / 262144 % 8 + 240 < 256 by omega),
        toNat_ofNat (show v / 4096 % 64 + 128 < 256 by omega)]
      omega

theorem isUtf8_nil : IsUtf8 [] := ⟨[], rfl⟩

theorem Sequence.isUtf8_append {b rest : Bytes} (h : Sequence b) (hrest : IsUtf8 rest) : IsUtf8 (b ++ rest) := by
  obtain ⟨c, rfl⟩ := h.exists_char
  obtain ⟨s, rfl⟩ := hrest
  exact ⟨c :: s, List.flatMap_cons⟩

theorem isUtf8_of_ascii {b : Bytes} (h : ∀ c ∈ b, c.toNat ≤ 127) : IsUtf8 b := by
  induction b with
  | nil => exact isUtf8_nil
  | cons c b ih =>
    obtain ⟨hc, hb⟩ := List.forall_mem_cons.mp h
    exact (Sequence.one c hc).isUtf8_append (ih hb)

theorem IsUtf8.exists_sequence {b : Bytes} (h : IsUtf8 b) (hb : b ≠ []) :
    ∃ c rest, Sequence c ∧ IsUtf8 rest ∧ b = c ++ rest := by
  obtain ⟨s, rfl⟩ := h
  cases s with
  | nil => exact absurd rfl hb
  | cons c s => exact ⟨_, _, sequence_encode c, ⟨s, rfl⟩, List.flatMap_cons⟩

end AeraRecovery.Lib.Utf8
