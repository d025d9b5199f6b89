import AeraRecovery.PluginApi.Clipboard

namespace AeraRecovery.PluginApi

open Lib Bytes Utf8 List

section

variable {size : Nat} {s : Bytes}

theorem length_charArray (h : s.length ≤ size) : (charArray size s).length = size := by
  rw [charArray, length_append, length_replicate]
  omega

theorem charArray_eq (h : s.length < size) : charArray size s = s ++ 0 :: List.replicate (size - s.length - 1) 0 := by
  obtain ⟨n, hn⟩ : ∃ n, size - s.length = n + 1 := ⟨size - s.length - 1, by omega⟩
  rw [charArray, hn, replicate_succ, Nat.add_sub_cancel]

theorem zero_mem_charArray (h : s.length < size) : 0 ∈ (charArray size s).take size := by
  rw [take_of_length_le (length_charArray (le_of_lt h)).le, charArray_eq h]
  exact mem_append_right s mem_cons_self

theorem cString_charArray (h : s.length < size) (hs : 0 ∉ s) : cString (charArray size s) = s := by
  have hall : ∀ b ∈ s, decide (b ≠ 0) = true := fun b hb => decide_eq_true fun hzero => hs (hzero ▸ hb)
  rw [charArray_eq h, cString, takeWhile_append_of_pos hall, takeWhile_cons_of_neg (by simp), append_nil]

end

structure Message.Fits (m : Message) : Prop where
  title : m.title.length = 96
  text : m.text.length = 1024
  strings : stringsValid m = true

namespace ClipboardTransfer

theorem fits_error (request : Message) (reason : String) : (error request reason).reply.Fits := by
  have htitle : ((ascii reason).take 95).length < 96 := by
    rw [length_take]
    omega
  have htext : ([] : Bytes).length < 1024 := by decide
  refine ⟨length_charArray (le_of_lt htitle), length_charArray (le_of_lt htext), ?_⟩
  rw [stringsValid, Bool.and_eq_true, decide_eq_true_iff, decide_eq_true_iff]
  exact ⟨zero_mem_charArray htitle, zero_mem_charArray htext⟩

theorem fits_answer (request : Message) (flags : UInt32) (value : Nat) {text : Bytes} (h : text.length < 1024) :
    (answer request flags value text).Fits := by
  have htitle : ([] : Bytes).length < 96 := by decide
  refine ⟨length_charArray (le_of_lt htitle), length_charArray (le_of_lt h), ?_⟩
  rw [stringsValid, Bool.and_eq_true, decide_eq_true_iff, decide_eq_true_iff]
  exact ⟨zero_mem_charArray htitle, zero_mem_charArray h⟩

inductive Outcome (transfer : ClipboardTransfer) (request : Message) (shared : Bytes) : Result → Prop
  | rejected (reason : String) : Outcome transfer request shared (error request reason)
  | start (hid : request.requestId ≠ 0) (hkind : request.kind = .getClipboard) (hflags : request.flags = 0)
      (hvalue : request.value = 0) (hsize : shared.length ≤ kMaxClipboardBytes) (htext : clipboardUtf8 shared = true) :
      Outcome transfer request shared (sendPart { snapshot := shared, readId := request.requestId } request)
  | more (hid : request.requestId ≠ 0) (hkind : request.kind = .getClipboard) (hflags : request.flags = kClipboardContinue)
      (hread : transfer.readId = request.requestId) (hvalue : request.value = transfer.readOffset) :
      Outcome transfer request shared (sendPart transfer request)
  | set (hid : request.requestId ≠ 0) (hkind : request.kind = .setClipboard)
      (hsize : request.value.toNat ≤ kMaxClipboardBytes) (hvalue : request.value ≠ 0) :
      Outcome transfer request shared
        { reply := answer request kClipboardReady 0 [],
          transfer := { expected := request.value, writeId := request.requestId } }
  | clear (hid : request.requestId ≠ 0) (hkind : request.kind = .setClipboard) :
      Outcome transfer request shared { reply := answer request kClipboardComplete 0 [], written := some [] }
  | chunk (hid : request.requestId ≠ 0) (hkind : request.kind = .clipboardChunk)
      (hwrite : request.requestId = transfer.writeId) (hvalue : request.value.toNat = transfer.pending.length)
      (hsize : (transfer.pending ++ cString request.text).length < transfer.expected.toNat) :
      Outcome transfer request shared
        { reply := answer request kClipboardReady (transfer.pending ++ cString request.text).length [],
          transfer := { transfer with pending := transfer.pending ++ cString request.text } }
  | last (hid : request.requestId ≠ 0) (hkind : request.kind = .clipboardChunk)
      (hwrite : request.requestId = transfer.writeId) (hvalue : request.value.toNat = transfer.pending.length)
      (hcount : (cString request.text).length ≤ sizeMinus transfer.expected.toNat transfer.pending.length)
      (htext : clipboardUtf8 (transfer.pending ++ cString request.text) = true) :
      Outcome transfer request shared
        { reply := answer request kClipboardComplete (transfer.pending ++ cString request.text).length [],
          written := some (transfer.pending ++ cString request.text) }

variable (transfer : ClipboardTransfer) {request : Message}

section

variable (shared : Bytes) (hid : request.requestId ≠ 0)

include hid

theorem handleRead_outcome (hkind : request.kind = .getClipboard) :
    Outcome transfer request shared (handleRead transfer request shared) := by
  rw [handleRead]
  split_ifs with hform hstart hvalue htext hread
  · exact .rejected _
  · exact .rejected _
  · exact .rejected _
  · simp only [gt_iff_lt, Bool.or_eq_true, decide_eq_true_iff, Bool.not_eq_true', not_or, not_lt,
      Bool.not_eq_false] at htext
    exact .start hid hkind hstart (not_not.mp hvalue) htext.1 htext.2
  · exact .rejected _
  · simp only [Bool.or_eq_true, Bool.and_eq_true, decide_eq_true_iff, not_or, not_and, not_not] at hform hread
    exact .more hid hkind (hform.2 hstart) hread.1 hread.2

theorem handleSet_outcome (hkind : request.kind = .setClipboard) :
    Outcome transfer request shared (handleSet request) := by
  rw [handleSet]
  split_ifs with hform hvalue
  · exact .rejected _
  · simp only [Bool.or_eq_true, decide_eq_true_iff, not_or, not_lt, gt_iff_lt] at hform
    exact .set hid hkind hform.2 hvalue
  · exact .clear hid hkind

theorem handleChunk_outcome (hkind : request.kind = .clipboardChunk) :
    Outcome transfer request shared (handleChunk transfer request) := by
  rw [handleChunk]
  dsimp only
  split_ifs with hform hcount hmore htext
  · exact .rejected _
  · exact .rejected _
  · simp only [Bool.or_eq_true, decide_eq_true_iff, not_or, not_not] at hform
    exact .chunk hid hkind hform.1.1.2 hform.2 hmore
  · exact .rejected _
  · simp only [Bool.or_eq_true, decide_eq_true_iff, not_or, not_not, not_lt, gt_iff_lt] at hform hcount
    exact .last hid hkind hform.1.1.2 hform.2 hcount.2 (by simpa using htext)

end

theorem handle_outcome (request : Message) (allowed : Bool) (shared : Bytes) :
    Outcome transfer request shared (transfer.handle request allowed shared) := by
  rw [handle]
  split_ifs with hallowed hform
  · exact .rejected _
  · exact .rejected _
  · simp only [Bool.or_eq_true, decide_eq_true_iff, not_or] at hform
    cases hkind : request.kind with
    | getClipboard => exact handleRead_outcome transfer shared hform.1.1 hkind
    | setClipboard => exact handleSet_outcome transfer shared hform.1.1 hkind
    | clipboardChunk => exact handleChunk_outcome transfer shared hform.1.1 hkind
    | clipboardResult | other => exact .rejected _

theorem sizeMinus_eq {a b : Nat} (h : b ≤ a) (ha : a < 2 ^ 64) : sizeMinus a b = a - b := by
  rw [sizeMinus]
  omega

theorem sendPart_cases (request : Message)
    (hoffset : request.value.toNat ≤ transfer.snapshot.length) (hsize : transfer.snapshot.length ≤ kMaxClipboardBytes)
    (hzero : 0 ∉ transfer.snapshot) :
    ∃ part flags, (sendPart transfer request).reply = answer request flags transfer.snapshot.length part ∧
      part.length < 1024 ∧ 0 ∉ part ∧ transfer.snapshot.take request.value.toNat ++ part <+: transfer.snapshot ∧
      (sendPart transfer request).written = none ∧
      (flags = kClipboardMore ∧ request.value.toNat + part.length < transfer.snapshot.length ∧
          (sendPart transfer request).transfer =
            { transfer with readOffset := .ofNat (request.value.toNat + part.length) } ∨
        flags = kClipboardComplete ∧ transfer.snapshot.take request.value.toNat ++ part = transfer.snapshot ∧
          (sendPart transfer request).transfer = {}) := by
  have hmax : kMaxClipboardBytes < 2 ^ 32 := by decide
  have hminus : sizeMinus transfer.snapshot.length request.value.toNat =
      transfer.snapshot.length - request.value.toNat := sizeMinus_eq hoffset (by omega)
  rw [sendPart, hminus]
  generalize hcount : min (transfer.snapshot.length - request.value.toNat) 1023 = count
  have hlength : (slice transfer.snapshot request.value.toNat count).length = count := length_slice (by omega)
  have hpart : transfer.snapshot.take request.value.toNat ++ slice transfer.snapshot request.value.toNat count =
      transfer.snapshot.take (request.value.toNat + count) := by
    rw [slice, take_add]
  have hpref := take_prefix (request.value.toNat + count) transfer.snapshot
  have hnozero : 0 ∉ slice transfer.snapshot request.value.toNat count :=
    fun hmem => hzero (mem_of_mem_drop (mem_of_mem_take hmem))
  have htoNat : (UInt32.ofNat (request.value.toNat + count)).toNat = request.value.toNat + count := by
    exact Nat.mod_eq_of_lt (by omega)
  by_cases hmore : request.value.toNat + count < transfer.snapshot.length
  · rw [htoNat, if_pos hmore]
    refine ⟨_, _, rfl, by omega, hnozero, hpart ▸ hpref, rfl, .inl ⟨rfl, by omega, ?_⟩⟩
    rw [hlength]
  · rw [htoNat, if_neg hmore]
    refine ⟨_, _, rfl, by omega, hnozero, hpart ▸ hpref, rfl, .inr ⟨rfl, ?_, rfl⟩⟩
    rw [hpart, take_of_length_le (by omega)]

end ClipboardTransfer

open ClipboardTransfer (answer sendPart_cases fits_answer)

def Record.Accepted (r : Record) : Prop := r.result.reply.flags ≠ kClipboardError

inductive Chunks (id : UInt32) : List Record → Bytes → Prop
  | nil : Chunks id [] []
  | snoc {l : List Record} {text : Bytes} {r : Record} (h : Chunks id l text) (haccepted : r.Accepted)
      (hkind : r.request.kind = .clipboardChunk) (hid : r.request.requestId = id)
      (hoffset : r.request.value.toNat = text.length)
      (hvalue : r.result.reply.value.toNat = (text ++ cString r.request.text).length) :
      Chunks id (l ++ [r]) (text ++ cString r.request.text)

inductive Parts (id : UInt32) (value : Bytes) : List Record → Bytes → Prop
  | start {r : Record} (haccepted : r.Accepted) (hkind : r.request.kind = .getClipboard) (hid : r.request.requestId = id)
      (hflags : r.request.flags = 0) (hshared : r.shared = value) (hvalue : r.result.reply.value.toNat = value.length) :
      Parts id value [r] (cString r.result.reply.text)
  | snoc {l : List Record} {text : Bytes} {r : Record} (h : Parts id value l text) (haccepted : r.Accepted)
      (hkind : r.request.kind = .getClipboard) (hid : r.request.requestId = id)
      (hflags : r.request.flags = kClipboardContinue) (hvalue : r.result.reply.value.toNat = value.length) :
      Parts id value (l ++ [r]) (text ++ cString r.result.reply.text)

structure Correct (history : List Record) (r : Record) : Prop where
  written : ∀ text, r.result.written = some text → r.Accepted ∧ r.request.kind ≠ .getClipboard ∧ IsUtf8 text ∧
    0 ∉ text ∧ text.length ≤ kMaxClipboardBytes
  write : r.Accepted → r.request.kind ≠ .getClipboard → ∃ before set chunks text, history = before ++ set :: chunks ∧
    set.Accepted ∧ set.request.kind = .setClipboard ∧ set.request.requestId = r.request.requestId ∧
    Chunks r.request.requestId chunks text ∧ ∀ w ∈ r.result.written, w = text
  read : r.Accepted → r.request.kind = .getClipboard → ∃ before parts value text, history = before ++ parts ∧
    Parts r.request.requestId value parts text ∧ (r.result.reply.flags = kClipboardComplete → text = value)
  rejected : ¬ r.Accepted ∨ r.allowed = false → r.result.transfer = {}
  fits : r.result.reply.Fits

inductive Tracks : List Record → ClipboardTransfer → Prop
  | idle (history : List Record) : Tracks history {}
  | writing (before : List Record) {set : Record} {chunks : List Record} {text : Bytes} (haccepted : set.Accepted)
      (hkind : set.request.kind = .setClipboard) (hid : set.request.requestId ≠ 0)
      (hchunks : Chunks set.request.requestId chunks text) (hsize : set.request.value.toNat ≤ kMaxClipboardBytes)
      (hmore : text.length < set.request.value.toNat) :
      Tracks (before ++ set :: chunks)
        { expected := set.request.value, writeId := set.request.requestId, pending := text }
  | reading (before : List Record) {id : UInt32} {value : Bytes} {parts : List Record} {text : Bytes} (hid : id ≠ 0)
      (hparts : Parts id value parts text) (hsize : value.length ≤ kMaxClipboardBytes) (hzero : 0 ∉ value)
      (hpref : text <+: value) (hmore : text.length < value.length) :
      Tracks (before ++ parts) { readId := id, readOffset := .ofNat text.length, snapshot := value }

theorem correct_rejected {history : List Record} {r : Record} {reason : String}
    (h : r.result = ClipboardTransfer.error r.request reason) : Correct history r := by
  have hrejected : ¬ r.Accepted := by
    rw [Record.Accepted, h]
    exact not_not.mpr rfl
  refine ⟨fun text htext => ?_, fun h => absurd h hrejected, fun h => absurd h hrejected, fun _ => ?_, ?_⟩
  · rw [h] at htext
    cases htext
  · rw [h]
    rfl
  · rw [h]
    exact ClipboardTransfer.fits_error _ _

section

variable {history : List Record} {r : Record} {flags : UInt32}

theorem accepted_of_reply {value : Nat} {part : Bytes}
    (hreply : r.result.reply = answer r.request flags value part) (hflags : flags ≠ kClipboardError) :
    r.Accepted := by
  rw [Record.Accepted, hreply]
  exact hflags

theorem correct_read {before parts : List Record} {value part text : Bytes}
    (hreply : r.result.reply = answer r.request flags value.length part)
    (hflags : flags ≠ kClipboardError) (hpart : part.length < 1024) (hwritten : r.result.written = none)
    (hkind : r.request.kind = .getClipboard) (hallowed : r.allowed = true) (hhistory : history = before ++ parts)
    (hparts : Parts r.request.requestId value parts text) (hcomplete : flags = kClipboardComplete → text = value) :
    Correct history r := by
  have haccepted := accepted_of_reply hreply hflags
  refine ⟨fun w hw => ?_, fun _ h => absurd hkind h, fun _ _ => ?_, fun h => ?_, ?_⟩
  · rw [hwritten] at hw
    cases hw
  · refine ⟨before, parts, value, text, hhistory, hparts, fun h => hcomplete ?_⟩
    rw [hreply] at h
    exact h
  · rcases h with h | h
    · exact absurd haccepted h
    · rw [hallowed] at h
      cases h
  · rw [hreply]
    exact fits_answer _ _ _ hpart

theorem correct_write {before chunks : List Record} {set : Record} {value : Nat} {text : Bytes}
    (hreply : r.result.reply = answer r.request flags value []) (hflags : flags ≠ kClipboardError)
    (hkind : r.request.kind ≠ .getClipboard) (hallowed : r.allowed = true)
    (hhistory : history = before ++ set :: chunks) (hset : set.Accepted) (hsetKind : set.request.kind = .setClipboard)
    (hid : set.request.requestId = r.request.requestId) (hchunks : Chunks r.request.requestId chunks text)
    (hwritten : ∀ w ∈ r.result.written, w = text ∧ IsUtf8 text ∧ 0 ∉ text ∧ text.length ≤ kMaxClipboardBytes) :
    Correct history r := by
  have haccepted := accepted_of_reply hreply hflags
  refine ⟨fun w hw => ?_, fun _ _ => ?_, fun _ h => absurd h hkind, fun h => ?_, ?_⟩
  · obtain ⟨rfl, htext⟩ := hwritten w hw
    exact ⟨haccepted, hkind, htext⟩
  · exact ⟨before, set, chunks, text, hhistory, hset, hsetKind, hid, hchunks, fun w hw => (hwritten w hw).1⟩
  · rcases h with h | h
    · exact absurd haccepted h
    · rw [hallowed] at h
      cases h
  · rw [hreply]
    exact fits_answer _ _ _ (by decide)

end

theorem toNat_ofNat_size {n : Nat} (h : n ≤ kMaxClipboardBytes) : (UInt32.ofNat n).toNat = n := by
  have hmax : kMaxClipboardBytes < 2 ^ 32 := by decide
  exact Nat.mod_eq_of_lt (by omega)

section

variable {history : List Record} {r : Record}

theorem Tracks.part {before parts : List Record} {value text part : Bytes} {flags : UInt32}
    (hid : r.request.requestId ≠ 0) (hkind : r.request.kind = .getClipboard) (hallowed : r.allowed = true)
    (hreply : r.result.reply = answer r.request flags value.length part)
    (hparts : r.Accepted → r.result.reply.value.toNat = value.length →
      Parts r.request.requestId value parts (text ++ cString r.result.reply.text))
    (hsize : value.length ≤ kMaxClipboardBytes) (hzero : 0 ∉ value) (hpart : part.length < 1024) (hpart0 : 0 ∉ part)
    (hpref : text ++ part <+: value) (hwritten : r.result.written = none)
    (hcases : flags = kClipboardMore ∧ (text ++ part).length < value.length ∧ r.result.transfer =
          { readId := r.request.requestId, readOffset := .ofNat (text ++ part).length, snapshot := value } ∨
      flags = kClipboardComplete ∧ text ++ part = value ∧ r.result.transfer = {}) :
    Tracks (before ++ parts) r.result.transfer ∧ Correct (before ++ parts) r := by
  have htext : cString r.result.reply.text = part := by
    rw [hreply]
    exact cString_charArray hpart hpart0
  have hvalue : r.result.reply.value.toNat = value.length := by
    rw [hreply]
    exact toNat_ofNat_size hsize
  have hflags : flags ≠ kClipboardError := by
    rcases hcases with ⟨rfl, -⟩ | ⟨rfl, -⟩
    · decide
    · decide
  have hparts' := hparts (accepted_of_reply hreply hflags) hvalue
  rw [htext] at hparts'
  rcases hcases with ⟨rfl, hmore, htransfer⟩ | ⟨rfl, hall, htransfer⟩
  · refine ⟨?_, correct_read hreply hflags hpart hwritten hkind hallowed rfl hparts' fun h => absurd h (by decide)⟩
    rw [htransfer]
    exact .reading before hid hparts' hsize hzero hpref hmore
  · refine ⟨?_, correct_read hreply hflags hpart hwritten hkind hallowed rfl hparts' fun _ => hall⟩
    rw [htransfer]
    exact .idle _

theorem Tracks.step {transfer : ClipboardTransfer} (h : Tracks history transfer)
    (hr : r.result = transfer.handle r.request r.allowed r.shared) :
    Tracks (history ++ [r]) r.result.transfer ∧ Correct (history ++ [r]) r := by
  by_cases hallowed : r.allowed = true
  · have houtcome := transfer.handle_outcome r.request r.allowed r.shared
    rw [← hr] at houtcome
    generalize hresult : r.result = result at houtcome
    cases houtcome with
    | rejected reason => exact ⟨.idle _, correct_rejected hresult⟩
    | start hid hkind hflags hvalue hsize htext =>
      obtain ⟨-, hzero⟩ := (clipboardUtf8_iff _).mp htext
      obtain ⟨part, flags, hreply, hpart, hpart0, hpref, hwritten, hcases⟩ := sendPart_cases
        { snapshot := r.shared, readId := r.request.requestId } r.request (by rw [hvalue]; exact Nat.zero_le _) hsize hzero
      rw [hvalue, UInt32.toNat_zero, take_zero, nil_append, zero_add] at hcases
      rw [hvalue, UInt32.toNat_zero, take_zero] at hpref
      rw [← hresult] at hreply hwritten hcases ⊢
      exact Tracks.part hid hkind hallowed hreply (fun ha hv => .start ha hkind rfl hflags rfl hv) hsize hzero hpart hpart0
        hpref hwritten hcases
    | more hid hkind hflags hread hvalue =>
      cases h with
      | idle | writing => exact absurd hread.symm hid
      | @reading before id value parts text hid' hparts hsize hzero hpre hmore =>
        obtain rfl : id = r.request.requestId := hread
        have hoffset : r.request.value.toNat = text.length := by
          rw [hvalue]
          exact toNat_ofNat_size (by omega)
        obtain ⟨part, flags, hreply, hpart, hpart0, hpref, hwritten, hcases⟩ := sendPart_cases
          { readId := r.request.requestId, readOffset := .ofNat text.length, snapshot := value } r.request
          (by rw [hoffset]; exact le_of_lt hmore) hsize hzero
        rw [hoffset, ← prefix_iff_eq_take.mp hpre] at hpref hcases
        rw [← length_append] at hcases
        rw [← hresult] at hreply hwritten hcases ⊢
        rw [append_assoc]
        exact Tracks.part hid hkind hallowed hreply (fun ha hv => hparts.snoc ha hkind rfl hflags hv) hsize hzero hpart
          hpart0 hpref hwritten hcases
    | set hid hkind hsize hvalue =>
      have hreply := congrArg Result.reply hresult
      have haccepted := accepted_of_reply hreply (by decide)
      refine ⟨.writing history haccepted hkind hid .nil hsize ?_, ?_⟩
      · exact pos_of_ne_zero fun hzero => hvalue (UInt32.toNat_inj.mp hzero)
      · refine correct_write hreply (by decide) (by rw [hkind]; nofun) hallowed rfl haccepted hkind rfl .nil ?_
        rw [hresult]
        nofun
    | clear hid hkind =>
      have hreply := congrArg Result.reply hresult
      have haccepted := accepted_of_reply hreply (by decide)
      refine ⟨.idle _, correct_write hreply (by decide) (by rw [hkind]; nofun) hallowed rfl haccepted hkind rfl .nil ?_⟩
      rw [hresult]
      rintro _ ⟨⟩
      exact ⟨rfl, isUtf8_nil, not_mem_nil, Nat.zero_le _⟩
    | chunk hid hkind hwrite hvalue hsize =>
      cases h with
      | idle | reading => exact absurd hwrite hid
      | writing before haccepted hset hid' hchunks hmax hmore =>
        dsimp only at hwrite hvalue hsize
        have hreply := congrArg Result.reply hresult
        have hall := hchunks.snoc (accepted_of_reply hreply (by decide)) hkind hwrite hvalue
          (by rw [hresult]; exact toNat_ofNat_size (hsize.le.trans hmax))
        rw [append_assoc]
        refine ⟨.writing before haccepted hset hid' hall hmax hsize, ?_⟩
        refine correct_write hreply (by decide) (by rw [hkind]; nofun) hallowed rfl haccepted hset hwrite.symm
          (hwrite ▸ hall) ?_
        rw [hresult]
        nofun
    | last hid hkind hwrite hvalue hcount htext =>
      cases h with
      | idle | reading => exact absurd hwrite hid
      | @writing before set chunks text haccepted hset hid' hchunks hmax hmore =>
        dsimp only at hwrite hvalue hcount htext
        have hfit : (text ++ cString r.request.text).length ≤ kMaxClipboardBytes := by
          have hmax' : kMaxClipboardBytes < 2 ^ 32 := by decide
          rw [ClipboardTransfer.sizeMinus_eq (le_of_lt hmore) (by omega)] at hcount
          rw [length_append]
          omega
        have hreply := congrArg Result.reply hresult
        have hall := hchunks.snoc (accepted_of_reply hreply (by decide)) hkind hwrite hvalue
          (by rw [hresult]; exact toNat_ofNat_size hfit)
        rw [append_assoc]
        refine ⟨.idle _, correct_write hreply (by decide) (by rw [hkind]; nofun) hallowed rfl haccepted hset hwrite.symm
          (hwrite ▸ hall) ?_⟩
        rw [hresult]
        rintro _ ⟨⟩
        obtain ⟨hutf8, hzero⟩ := (clipboardUtf8_iff _).mp htext
        exact ⟨rfl, hutf8, hzero, hfit⟩
  · rw [Bool.not_eq_true] at hallowed
    have herror : r.result = ClipboardTransfer.error r.request "Clipboard is available only to the active plugin view." := by
      rw [hr, hallowed]
      rfl
    refine ⟨?_, correct_rejected herror⟩
    rw [herror]
    exact .idle _

end

theorem Tracks.run {history : List Record} {transfer : ClipboardTransfer} (h : Tracks history transfer)
    (events : List Event) {before : List Record} {r : Record} {after : List Record}
    (hrun : run transfer events = before ++ r :: after) : Correct (history ++ before ++ [r]) r := by
  induction events generalizing history transfer before with
  | nil => cases before <;> cases hrun
  | cons event events ih =>
    cases event with
    | reset => exact ih (.idle history) hrun
    | message request allowed shared =>
      have hstep := h.step (r := ⟨request, allowed, shared, transfer.handle request allowed shared⟩) rfl
      obtain ⟨htracks, hcorrect⟩ := hstep
      cases before with
      | nil =>
        obtain ⟨rfl, -⟩ := List.cons.inj hrun
        rw [append_nil]
        exact hcorrect
      | cons first before =>
        obtain ⟨rfl, hrest⟩ := List.cons.inj hrun
        rw [append_cons history]
        exact ih htracks hrest

/-- Every message of every history is treated as the protocol asks for. -/
theorem clipboard_correct (events : List Event) (before : List Record) (r : Record) (after : List Record)
    (hrun : run {} events = before ++ r :: after) : Correct (before ++ [r]) r :=
  Tracks.run (.idle []) events hrun

def sampleEvents : List Event :=
  [.message { kind := .setClipboard, requestId := 7, value := 2 } true [],
    .message { kind := .clipboardChunk, requestId := 7, text := charArray 1024 (ascii "hi") } true []]

theorem clipboard_correct_sample :
    ∃ before r, run {} sampleEvents = before ++ [r] ∧ r.result.written = some (ascii "hi") ∧ Correct (before ++ [r]) r :=
  ⟨(run {} sampleEvents).take 1, _, rfl, by decide +kernel, clipboard_correct sampleEvents _ _ [] rfl⟩

end AeraRecovery.PluginApi
