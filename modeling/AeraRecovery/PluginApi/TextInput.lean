import AeraRecovery.PluginApi.Clipboard

namespace AeraRecovery.PluginApi

open Lib Bytes Utf8 List UInt32

def inputCharacters (text : Bytes) : UInt32 :=
  text.foldl (fun count c => if c &&& 192 ≠ 128 then count + 1 else count) 0

theorem inputCharacters_eq (text : Bytes) :
    inputCharacters text = ofNat (text.countP fun c => c &&& 192 ≠ 128) := by
  have hfrom : ∀ count : UInt32, text.foldl (fun count c => if c &&& 192 ≠ 128 then count + 1 else count) count =
      count + ofNat (text.countP fun c => c &&& 192 ≠ 128) := by
    induction text with
    | nil => exact fun count => (add_zero count).symm
    | cons c text ih =>
      intro count
      rw [foldl_cons, ih, countP_cons]
      by_cases h : c &&& 192 = 128
      · simp [h]
      · simp [h, UInt32.add_assoc, UInt32.add_comm 1]
  exact (hfrom 0).trans (zero_add _)

theorem Sequence.countP_lead {b : Bytes} (h : Sequence b) : (b.countP fun c => c &&& 192 ≠ 128) = 1 := by
  have hkept {c : UInt8} (hc : Continuation c) : c &&& 192 = 128 := (continuation_iff c).mpr hc
  have hlead {c : UInt8} (hc : c.toNat ≤ 127 ∨ 192 ≤ c.toNat) : c &&& 192 ≠ 128 := by
    rw [Ne, continuation_iff, Continuation]
    omega
  cases h with
  | one a ha => simp [hlead (.inl ha)]
  | two a b ha hb => simp [hlead (.inr (by omega : 192 ≤ a.toNat)), hkept hb]
  | three a b c ha hb hc => simp [hlead (.inr (by omega : 192 ≤ a.toNat)), hkept hb, hkept hc]
  | four a b c d ha hb hc hd => simp [hlead (.inr (by omega : 192 ≤ a.toNat)), hkept hb, hkept hc, hkept hd]

theorem zero_mem_encode_iff (c : Char) : 0 ∈ String.utf8EncodeChar c ↔ c = '\x00' := by
  constructor
  · intro h
    have hval : c.val.toNat = 0 := by
      simp only [String.utf8EncodeChar] at h
      split_ifs at h <;>
        simp only [mem_cons, not_mem_nil, or_false, ← UInt8.toNat_inj, UInt8.toNat_zero, UInt8.toNat_ofNat'] at h <;>
        omega
    exact Char.ext (UInt32.toNat_inj.mp hval)
  · rintro rfl
    decide

theorem clipboardUtf8_iff_exists (text : Bytes) : clipboardUtf8 text = true ↔
    ∃ s : List Char, '\x00' ∉ s ∧ s.flatMap String.utf8EncodeChar = text := by
  rw [clipboardUtf8_iff, IsUtf8, ← exists_and_right]
  refine exists_congr fun s => and_comm.trans (and_congr_left ?_)
  rintro rfl
  simp [zero_mem_encode_iff]

theorem inputCharacters_flatMap (s : List Char) :
    inputCharacters (s.flatMap String.utf8EncodeChar) = ofNat s.length := by
  have hone : (countP fun c : UInt8 => decide (c &&& 192 ≠ 128)) ∘ String.utf8EncodeChar = fun _ => 1 :=
    funext fun c => Sequence.countP_lead (sequence_encode c)
  rw [inputCharacters_eq, countP_flatMap, hone]
  simp

/-- `ClipboardUtf8` accepts the encodings of texts without the character 0. `InputCharacters` counts their characters
modulo the size of its counter. -/
theorem clipboardUtf8_characters (text : Bytes) :
    (clipboardUtf8 text = true ↔ ∃ s : List Char, '\x00' ∉ s ∧ s.flatMap String.utf8EncodeChar = text) ∧
    ∀ s : List Char, s.flatMap String.utf8EncodeChar = text → inputCharacters text = ofNat s.length :=
  ⟨clipboardUtf8_iff_exists text, fun s hs => hs ▸ inputCharacters_flatMap s⟩

/-- A text of 2 ^ 32 characters is counted as an empty one. -/
theorem characters_wrap : clipboardUtf8 (replicate (2 ^ 32) 97) = true ∧
    inputCharacters (replicate (2 ^ 32) 97) = 0 := by
  have htext : ∀ n, (replicate n 'a').flatMap String.utf8EncodeChar = replicate n 97 := by
    intro n
    induction n with
    | zero => rfl
    | succ n ih =>
      rw [replicate_succ, flatMap_cons, ih]
      rfl
  refine ⟨(clipboardUtf8_iff_exists _).mpr ⟨_, fun h => ?_, htext _⟩, ?_⟩
  · exact absurd (eq_of_mem_replicate h) (by decide)
  · rw [← htext, inputCharacters_flatMap, length_replicate]
    rfl

end AeraRecovery.PluginApi
