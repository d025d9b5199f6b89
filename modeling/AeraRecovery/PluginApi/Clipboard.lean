import AeraRecovery.Lib.Utf8
import AeraRecovery.PluginApi.Protocol

namespace AeraRecovery.PluginApi

open Lib Bytes Utf8 List

def kMaxClipboardBytes : Nat := 1024 * 1024

def kClipboardContinue : UInt32 := 1

def kClipboardReady : UInt32 := 1

def kClipboardMore : UInt32 := 2

def kClipboardComplete : UInt32 := 4

def kClipboardError : UInt32 := 8

def sequenceLength (lead : Nat) : Nat :=
  if 194 ≤ lead ∧ lead ≤ 223 then 2 else if 224 ≤ lead ∧ lead ≤ 239 then 3 else if 240 ≤ lead ∧ lead ≤ 244 then 4 else 0

def wrongSecond (lead second : Nat) : Bool :=
  (lead = 224 && second < 160) || (lead = 237 && 160 ≤ second) || (lead = 240 && second < 144) || (lead = 244 && 144 ≤ second)

def clipboardUtf8From : Nat → Bytes → Bool
  | _, [] => true
  | 0, _ => false
  | rounds + 1, lead :: rest =>
    if lead = 0 then false
    else if lead.toNat < 128 then clipboardUtf8From rounds rest
    else
      let length := sequenceLength lead.toNat
      if length = 0 || rest.length < length - 1 then false
      else if wrongSecond lead.toNat (byte rest 0) then false
      else if (rest.take (length - 1)).all (fun b => b &&& 192 = 128) then
        clipboardUtf8From rounds (rest.drop (length - 1))
      else false

def clipboardUtf8 (text : Bytes) : Bool := clipboardUtf8From text.length text

theorem continuation_iff (b : UInt8) : b &&& 192 = 128 ↔ Continuation b := by
  have hbits : ∀ n < 256, n &&& 192 = 128 ↔ 128 ≤ n ∧ n ≤ 191 := by decide +kernel
  rw [← UInt8.toNat_inj, UInt8.toNat_and]
  exact hbits b.toNat b.toNat_lt

theorem wrongSecond_eq_false_iff {lead second : Nat} : wrongSecond lead second = false ↔
    (lead = 224 → 160 ≤ second) ∧ (lead = 237 → second < 160) ∧ (lead = 240 → 144 ≤ second) ∧
      (lead = 244 → second < 144) := by
  simp only [wrongSecond, Bool.or_eq_false_iff, Bool.and_eq_false_iff, decide_eq_false_iff_not]
  omega

theorem sequenceLength_eq_zero_or (lead : Nat) : sequenceLength lead = 0 ∨ 2 ≤ sequenceLength lead := by
  rw [sequenceLength]
  split_ifs <;> omega

theorem sequence_of_length {lead : UInt8} {tail : Bytes}
    (hlength : sequenceLength lead.toNat = tail.length + 1) (hsecond : wrongSecond lead.toNat (byte tail 0) = false)
    (htail : ∀ b ∈ tail, Continuation b) : Sequence (lead :: tail) := by
  rw [wrongSecond_eq_false_iff] at hsecond
  obtain ⟨h1, h2, h3, h4⟩ := hsecond
  rw [sequenceLength] at hlength
  split_ifs at hlength with ha ha ha
  · obtain ⟨b, rfl⟩ := length_eq_one_iff.mp (show tail.length = 1 by omega)
    exact .two lead b ha (htail b (by simp))
  · obtain ⟨b, c, rfl⟩ := length_eq_two.mp (show tail.length = 2 by omega)
    exact .three lead b c ha (htail b (by simp)) (htail c (by simp)) h1 h2
  · obtain ⟨b, c, d, rfl⟩ := length_eq_three.mp (show tail.length = 3 by omega)
    exact .four lead b c d ha (htail b (by simp)) (htail c (by simp)) (htail d (by simp)) h3 h4

theorem sequence_cons {lead : UInt8} {tail : Bytes} (h : Sequence (lead :: tail)) :
    lead.toNat < 128 ∧ tail = [] ∨ 128 ≤ lead.toNat ∧ sequenceLength lead.toNat = tail.length + 1 ∧
      wrongSecond lead.toNat (byte tail 0) = false ∧ ∀ b ∈ tail, Continuation b := by
  simp only [wrongSecond_eq_false_iff, sequenceLength]
  cases h with
  | one a ha => exact .inl ⟨by omega, rfl⟩
  | two a b ha hb =>
    refine .inr ⟨by omega, if_pos ha, by omega, ?_⟩
    simpa using hb
  | three a b c ha hb hc hshort hsurrogate =>
    refine .inr ⟨by omega, ?_, ⟨hshort, hsurrogate, by omega⟩, ?_⟩
    · rw [if_neg (by omega), if_pos ha]
      rfl
    · simpa using ⟨hb, hc⟩
  | four a b c d ha hb hc hd hshort hlarge =>
    refine .inr ⟨by omega, ?_, ⟨by omega, by omega, hshort, hlarge⟩, ?_⟩
    · rw [if_neg (by omega), if_neg (by omega), if_pos ha]
      rfl
    · simpa using ⟨hb, hc, hd⟩

theorem clipboardUtf8From_succ_iff (rounds : Nat) (lead : UInt8) (rest : Bytes) :
    clipboardUtf8From (rounds + 1) (lead :: rest) = true ↔
      lead ≠ 0 ∧ ∃ tail rest', Sequence (lead :: tail) ∧ rest = tail ++ rest' ∧ clipboardUtf8From rounds rest' = true := by
  rw [clipboardUtf8From]
  by_cases hzero : lead = 0
  · simp [hzero]
  rw [if_neg hzero, and_iff_right hzero]
  by_cases hone : lead.toNat < 128
  · rw [if_pos hone]
    constructor
    · intro h
      exact ⟨[], rest, .one lead (by omega), rfl, h⟩
    · rintro ⟨tail, rest', hseq, rfl, h⟩
      rcases sequence_cons hseq with ⟨-, rfl⟩ | ⟨hlarge, -⟩
      · exact h
      · omega
  · rw [if_neg hone]
    constructor
    · intro h
      dsimp only at h
      split_ifs at h with hlength hsecond hall
      rw [Bool.or_eq_true, decide_eq_true_iff, decide_eq_true_iff, not_or] at hlength
      have htwo := (sequenceLength_eq_zero_or lead.toNat).resolve_left hlength.1
      refine ⟨_, _, ?_, (take_append_drop (sequenceLength lead.toNat - 1) rest).symm, h⟩
      refine sequence_of_length ?_ ?_ fun b hb => ?_
      · rw [length_take]
        omega
      · rw [byte_take (by omega)]
        exact Bool.eq_false_iff.mpr hsecond
      · exact (continuation_iff b).mp (of_decide_eq_true (all_eq_true.mp hall b hb))
    · rintro ⟨tail, rest', hseq, rfl, h⟩
      rcases sequence_cons hseq with ⟨hsmall, -⟩ | ⟨-, hlength, hsecond, htail⟩
      · omega
      have htwo := sequenceLength_eq_zero_or lead.toNat
      have hfirst : byte (tail ++ rest') 0 = byte tail 0 := by
        cases tail with
        | nil => simp [hlength] at htwo
        | cons b tail => rfl
      have hall : tail.all (fun b => b &&& 192 = 128) = true :=
        all_eq_true.mpr fun b hb => decide_eq_true ((continuation_iff b).mpr (htail b hb))
      have hfit : ¬ (tail.length + 1 = 0 || (tail ++ rest').length < tail.length + 1 - 1) = true := by simp
      rw [hlength, if_neg hfit, hfirst, if_neg (Bool.eq_false_iff.mp hsecond), Nat.add_sub_cancel, take_left,
        if_pos hall, drop_left]
      exact h

theorem clipboardUtf8From_iff {rounds : Nat} {text : Bytes} (h : text.length ≤ rounds) :
    clipboardUtf8From rounds text = true ↔ IsUtf8 text ∧ 0 ∉ text := by
  induction rounds generalizing text with
  | zero =>
    obtain rfl := eq_nil_of_length_eq_zero (Nat.le_zero.mp h)
    exact iff_of_true rfl ⟨isUtf8_nil, not_mem_nil⟩
  | succ rounds ih =>
    cases text with
    | nil => exact iff_of_true (by rw [clipboardUtf8From]) ⟨isUtf8_nil, not_mem_nil⟩
    | cons lead rest =>
      rw [length_cons] at h
      rw [clipboardUtf8From_succ_iff]
      constructor
      · rintro ⟨hlead, tail, rest', hseq, rfl, hrest⟩
        rw [length_append] at h
        obtain ⟨hrest, hzero⟩ := (ih (by omega)).mp hrest
        refine ⟨hseq.isUtf8_append hrest, ?_⟩
        rw [mem_cons, mem_append]
        rintro (hz | hz | hz)
        · exact hlead hz.symm
        · rcases sequence_cons hseq with ⟨-, rfl⟩ | ⟨-, -, -, htail⟩
          · cases hz
          · exact absurd (htail 0 hz).1 (by decide)
        · exact hzero hz
      · rintro ⟨hutf8, hzero⟩
        rw [mem_cons, not_or] at hzero
        obtain ⟨c, rest', hseq, hrest, heq⟩ := hutf8.exists_sequence (cons_ne_nil _ _)
        cases c with
        | nil => cases hseq
        | cons a tail =>
          rw [cons_append] at heq
          obtain ⟨rfl, rfl⟩ := List.cons.inj heq
          rw [mem_append, not_or] at hzero
          rw [length_append] at h
          refine ⟨fun h => hzero.1 h.symm, tail, rest', hseq, rfl, (ih (by omega)).mpr ⟨hrest, hzero.2.2⟩⟩

theorem clipboardUtf8_iff (text : Bytes) : clipboardUtf8 text = true ↔ IsUtf8 text ∧ 0 ∉ text :=
  clipboardUtf8From_iff (Nat.le_refl _)

structure ClipboardTransfer where
  readId : UInt32 := 0
  writeId : UInt32 := 0
  expected : UInt32 := 0
  readOffset : UInt32 := 0
  snapshot : Bytes := []
  pending : Bytes := []
  deriving DecidableEq

/-- The reply, the text given to the write function and the state after a message. -/
structure Result where
  reply : Message
  written : Option Bytes := none
  transfer : ClipboardTransfer := {}

/-- A difference of two sizes. -/
def sizeMinus (a b : Nat) : Nat := (a + 2 ^ 64 - b) % 2 ^ 64

namespace ClipboardTransfer

def error (request : Message) (reason : String) : Result where
  reply := {
    kind := .clipboardResult, requestId := request.requestId, flags := kClipboardError,
    title := charArray 96 ((ascii reason).take 95) }

def answer (request : Message) (flags : UInt32) (value : Nat) (text : Bytes) : Message where
  kind := .clipboardResult
  requestId := request.requestId
  value := .ofNat value
  flags := flags
  text := charArray 1024 text

variable (transfer : ClipboardTransfer)

def sendPart (request : Message) : Result :=
  let size := transfer.snapshot.length
  let count := min (sizeMinus size request.value.toNat) 1023
  let part := slice transfer.snapshot request.value.toNat count
  let offset : UInt32 := .ofNat (request.value.toNat + count)
  if offset.toNat < size then
    { reply := answer request kClipboardMore size part, transfer := { transfer with readOffset := offset } }
  else { reply := answer request kClipboardComplete size part }

def handleRead (request : Message) (shared : Bytes) : Result :=
  if byte request.text 0 ≠ 0 || (request.flags ≠ 0 && request.flags ≠ kClipboardContinue) then
    error request "Invalid clipboard read."
  else if request.flags = 0 then
    if request.value ≠ 0 then error request "Clipboard reads must start at offset zero."
    else if shared.length > kMaxClipboardBytes || !clipboardUtf8 shared then
      error request "Clipboard text exceeds the limit or is not valid UTF-8."
    else sendPart { snapshot := shared, readId := request.requestId } request
  else if transfer.readId ≠ request.requestId || request.value ≠ transfer.readOffset then
    error request "Clipboard read offset or request ID changed."
  else sendPart transfer request

def handleSet (request : Message) : Result :=
  if request.flags ≠ 0 || byte request.text 0 ≠ 0 || request.value.toNat > kMaxClipboardBytes then
    error request "Invalid clipboard size or write request."
  else if request.value ≠ 0 then
    { reply := answer request kClipboardReady 0 [], transfer := { expected := request.value, writeId := request.requestId } }
  else { reply := answer request kClipboardComplete 0 [], written := some [] }

def handleChunk (request : Message) : Result :=
  if request.flags ≠ 0 || request.requestId ≠ transfer.writeId || transfer.writeId = 0 ||
      request.value.toNat ≠ transfer.pending.length then
    error request "Clipboard write offset or request ID changed."
  else
    let count := (cString request.text).length
    if count = 0 || count > sizeMinus transfer.expected.toNat transfer.pending.length then
      error request "Clipboard chunk exceeds the declared size."
    else
      let pending := transfer.pending ++ cString request.text
      if pending.length < transfer.expected.toNat then
        { reply := answer request kClipboardReady pending.length [], transfer := { transfer with pending := pending } }
      else if !clipboardUtf8 pending then error request "Clipboard text is not valid UTF-8."
      else { reply := answer request kClipboardComplete pending.length [], written := some pending }

def handle (request : Message) (allowed : Bool) (shared : Bytes) : Result :=
  if !allowed then error request "Clipboard is available only to the active plugin view."
  else if request.requestId = 0 || byte request.title 0 ≠ 0 || !stringsValid request then
    error request "Invalid clipboard request."
  else
    match request.kind with
    | .getClipboard => handleRead transfer request shared
    | .setClipboard => handleSet request
    | .clipboardChunk => handleChunk transfer request
    | .clipboardResult | .other _ => error request "Clipboard write offset or request ID changed."

end ClipboardTransfer

inductive Event
  | reset
  | message (request : Message) (allowed : Bool) (shared : Bytes)

structure Record where
  request : Message
  allowed : Bool
  shared : Bytes
  result : Result

def run : ClipboardTransfer → List Event → List Record
  | _, [] => []
  | _, .reset :: events => run {} events
  | transfer, .message request allowed shared :: events =>
    let result := transfer.handle request allowed shared
    ⟨request, allowed, shared, result⟩ :: run result.transfer events

end AeraRecovery.PluginApi
