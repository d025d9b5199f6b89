import AeraRecovery.ImageZip.Stream

namespace AeraRecovery.ImageZip.ImageWriter

open Lib Bytes Crc32 List Option

section

variable [Crc32] {part : Partition} {seen : Bytes} {w : ImageWriter}

/-- What `Append` of the pieces and then `Finish` give: the digest and the bytes that were written. -/
def process (part : Partition) (sha256 : Bytes → Bytes) (entry : ZipEntry) (pieces : List Bytes) :
    Option (Bytes × Bytes) :=
  match feed part (start part) pieces with
  | some (true, w) => (finish part sha256 entry w).map (·, w.file)
  | _ => none

structure Copies (part : Partition) (seen : Bytes) (w : ImageWriter) : Prop where
  raw : part.sparse = false
  state : w.state = .raw
  encoded : w.encoded = seen.length
  encodedCrc : w.encodedCrc = checksum 0 seen
  written : w.written = seen.length
  file : w.file = seen
  fits : seen.length ≤ part.bytes

theorem copies_start (hraw : part.sparse = false) : Copies part [] (start part) := by
  rw [start, if_neg (by rw [hraw]; exact Bool.false_ne_true)]
  exact ⟨hraw, rfl, rfl, (checksum_nil 0).symm, rfl, rfl, Nat.zero_le _⟩

theorem appendLoop_raw {v : ImageWriter} (hv : v.state = .raw) (b : UInt8) (data : Bytes) (fuel : Nat) :
    appendLoop part (fuel + 1) v (b :: data) = some (output part v (b :: data)) := by
  have hturn : turn part v (b :: data) = (output part v (b :: data), []) := by rw [turn, hv]
  rw [appendLoop, hturn]
  split_ifs with hok
  · rw [appendLoop, ← hok]
  · rfl

theorem output_cases (part : Partition) (v : ImageWriter) (data : Bytes) :
    (output part v data = (false, v) ∧ part.bytes - v.written < data.length) ∨
      ∃ v', output part v data = (true, v') ∧ data.length ≤ part.bytes - v.written ∧ v'.state = v.state ∧
        v'.encoded = v.encoded ∧ v'.encodedCrc = v.encodedCrc ∧ v'.written = v.written + data.length ∧
        v'.file = v.file ++ data := by
  by_cases h : data.length > part.bytes - v.written
  · exact .inl ⟨if_pos h, h⟩
  · exact .inr ⟨_, if_neg h, not_lt.mp h, rfl, rfl, rfl, rfl, rfl⟩

theorem append_raw (part : Partition) (hw : w.state = .raw) (b : UInt8) (data : Bytes) :
    (∃ v, append part w (b :: data) = some (false, v) ∧ part.bytes - w.written < (b :: data).length) ∨
      ∃ v, append part w (b :: data) = some (true, v) ∧ (b :: data).length ≤ part.bytes - w.written ∧ v.state = .raw ∧
        v.encoded = w.encoded + (b :: data).length ∧ v.encodedCrc = crc32 w.encodedCrc (b :: data) ∧
        v.written = w.written + (b :: data).length ∧ v.file = w.file ++ b :: data := by
  rw [append, length_cons, appendLoop_raw (by exact hw)]
  rcases output_cases part _ (b :: data) with ⟨hout, hroom⟩ | ⟨v, hout, hroom, hstate, hrest⟩
  · exact .inl ⟨_, congrArg some hout, hroom⟩
  · exact .inr ⟨v, congrArg some hout, hroom, hstate.trans hw, hrest⟩

/-- The writer counts the bytes that it writes. -/
def Counts (w : ImageWriter) : Prop := w.written = w.file.length

theorem Counts.output (h : w.Counts) (data : Bytes) : (output part w data).2.Counts := by
  rcases output_cases part w data with ⟨hout, -⟩ | ⟨v, hout, -, -, -, -, hwritten, hfile⟩
  · rw [hout]
    exact h
  · rw [hout, Counts, hwritten, hfile, length_append, h]

theorem Counts.repeatLoop (h : w.Counts) (data : Bytes) (fuel bytes : Nat) :
    (repeatLoop part data fuel w bytes).2.Counts := by
  induction fuel generalizing w bytes with
  | zero => cases bytes <;> exact h
  | succ fuel ih =>
    cases bytes with
    | zero => exact h
    | succ bytes =>
      rw [ImageWriter.repeatLoop]
      split_ifs
      · exact ih (h.output _) _
      · exact h.output _

theorem Counts.beginData (h : w.Counts) : (beginData part w).2.Counts := by
  have hrepeat : (repeatBytes part { w with buffer := [] } w.chunkBytes []).2.Counts :=
    Counts.repeatLoop (w := { w with buffer := [] }) h _ _ _
  unfold ImageWriter.beginData
  dsimp only
  split_ifs
  · exact h
  · exact h
  · exact hrepeat
  · exact hrepeat
  · exact h
  · exact h

theorem Counts.complete (h : w.Counts) : (complete part w).2.Counts := by
  unfold ImageWriter.complete readHeader readChunk readFill readCrc
  dsimp only
  split
  · split_ifs <;> exact h
  · split_ifs
    all_goals first | exact h | exact Counts.beginData h
  · have hrepeat : (repeatBytes part w w.chunkBytes w.buffer).2.Counts := h.repeatLoop _ _ _
    split_ifs <;> exact hrepeat
  · split_ifs <;> exact h
  · exact h

theorem Counts.turn (h : w.Counts) (data : Bytes) : (turn part w data).1.2.Counts := by
  unfold ImageWriter.turn
  dsimp only
  split
  · exact h.output _
  · split_ifs <;> exact h.output _
  · split_ifs <;> exact h
  · split_ifs
    · exact Counts.beginData h
    · exact h
  · split_ifs
    · exact h
    · exact Counts.complete h

theorem Counts.appendLoop (h : w.Counts) {fuel : Nat} {data : Bytes} {r : Bool × ImageWriter}
    (hr : appendLoop part fuel w data = some r) : r.2.Counts := by
  induction fuel generalizing w data with
  | zero =>
    cases data with
    | nil => exact some.inj hr ▸ h
    | cons b data => cases hr
  | succ fuel ih =>
    cases data with
    | nil => exact some.inj hr ▸ h
    | cons b data =>
      rw [ImageWriter.appendLoop] at hr
      split_ifs at hr
      · exact ih (h.turn _) hr
      · exact some.inj hr ▸ h.turn _

theorem Counts.feed (h : w.Counts) {pieces : List Bytes} {r : Bool × ImageWriter} (hr : feed part w pieces = some r) :
    r.2.Counts := by
  induction pieces generalizing w with
  | nil => exact some.inj hr ▸ h
  | cons data pieces ih =>
    rw [ImageWriter.feed, bind_eq_some_iff] at hr
    obtain ⟨s, hs, hr⟩ := hr
    have hcounts : s.2.Counts := Counts.appendLoop (w := { w with
      encoded := w.encoded + data.length, encodedCrc := crc32 w.encodedCrc data }) h hs
    split_ifs at hr
    · exact ih hcounts hr
    · exact some.inj hr ▸ hcounts

theorem Copies.append (h : Copies part seen w) {data : Bytes} (hsize : data.length < 2 ^ 32) :
    ∃ r, append part w data = some r ∧
      if r.1 then Copies part (seen ++ data) r.2 else part.bytes < (seen ++ data).length := by
  have hcrc : crc32 w.encodedCrc data = checksum 0 (seen ++ data) := by
    rw [h.encodedCrc, crc32_eq_checksum _ hsize, checksum_append]
  have hlength : w.encoded + data.length = (seen ++ data).length := by rw [h.encoded, length_append]
  have hwritten := h.written
  have hfits := h.fits
  cases data with
  | nil =>
    refine ⟨_, rfl, ?_⟩
    rw [if_pos rfl, append_nil]
    exact ⟨h.raw, h.state, h.encoded, by rw [hcrc, append_nil], h.written, h.file, h.fits⟩
  | cons b data =>
    rcases append_raw part h.state b data with
      ⟨v, happend, hroom⟩ | ⟨v, happend, hroom, hstate, hencoded, hencodedCrc, hput, hfile⟩
    · refine ⟨_, happend, ?_⟩
      rw [if_neg Bool.false_ne_true, length_append]
      omega
    · refine ⟨_, happend, ?_⟩
      rw [if_pos rfl]
      refine ⟨h.raw, hstate, hencoded.trans hlength, hencodedCrc.trans hcrc, ?_, ?_, ?_⟩
      · rw [hput, hwritten, length_append]
      · rw [hfile, h.file]
      · rw [length_append]
        omega

theorem Copies.feed (h : Copies part seen w) {pieces : List Bytes} (hsize : ∀ data ∈ pieces, data.length < 2 ^ 32) :
    ∃ r, feed part w pieces = some r ∧
      if r.1 then Copies part (seen ++ pieces.flatten) r.2 else part.bytes < (seen ++ pieces.flatten).length := by
  induction pieces generalizing w seen with
  | nil =>
    refine ⟨(true, w), rfl, ?_⟩
    simpa only [if_true, flatten_nil, append_nil] using h
  | cons data pieces ih =>
    obtain ⟨r, hr, hcopies⟩ := h.append (hsize data mem_cons_self)
    rw [ImageWriter.feed, hr, bind_some, flatten_cons]
    split_ifs at hcopies ⊢ with hok
    · obtain ⟨r', hr', hcopies'⟩ := ih hcopies (forall_mem_cons.mp hsize).2
      exact ⟨r', hr', by rwa [append_assoc] at hcopies'⟩
    · refine ⟨r, rfl, ?_⟩
      rw [if_neg hok]
      simp only [length_append] at hcopies ⊢
      omega

def image (part : Partition) (stream : Bytes) : Option Bytes :=
  if part.sparse then decode part.bytes stream else if stream.length = part.bytes then some stream else none

def result (part : Partition) (sha256 : Bytes → Bytes) (entry : ZipEntry) (stream : Bytes) : Option (Bytes × Bytes) :=
  if entry.uncompressedLength = stream.length ∧ entry.crc32 = checksum 0 stream then
    (image part stream).map fun i => (sha256 i, i)
  else none

theorem finish_of_ne {sha256 : Bytes → Bytes} {entry : ZipEntry} (hlen : w.encoded = seen.length)
    (hcrc : w.encodedCrc = checksum 0 seen)
    (hne : ¬ (entry.uncompressedLength = seen.length ∧ entry.crc32 = checksum 0 seen)) :
    finish part sha256 entry w = none := by
  rw [finish, if_pos]
  by_contra h
  simp only [not_or, ne_eq, not_not] at h
  exact hne ⟨by rw [← h.1, hlen], by rw [← h.2.1, hcrc]⟩

section

variable (sha256 : Bytes → Bytes) (entry : ZipEntry) {pieces : List Bytes}
  (hsize : ∀ data ∈ pieces, data.length < 2 ^ 32)

include hsize

theorem process_raw (hraw : part.sparse = false) :
    process part sha256 entry pieces = result part sha256 entry pieces.flatten := by
  obtain ⟨⟨ok, w⟩, hfeed, hcopies⟩ := (copies_start hraw).feed hsize
  have himage : image part pieces.flatten =
      if pieces.flatten.length = part.bytes then some pieces.flatten else none :=
    if_neg (by rw [hraw]; exact Bool.false_ne_true)
  rw [process, hfeed, result, himage]
  cases ok with
  | false =>
    have hlong : pieces.flatten.length ≠ part.bytes := Nat.ne_of_gt hcopies
    simp only [if_neg hlong, map_none, ite_self]
  | true =>
    have hcopies : Copies part pieces.flatten w := hcopies
    change (finish part sha256 entry w).map (·, w.file) = _
    split_ifs with hentry hsize
    · rw [finish, if_neg, hcopies.file]
      · rfl
      · simp [hcopies.encoded, hcopies.encodedCrc, hcopies.written, hentry.1, hentry.2, hsize, hraw]
    · rw [finish, if_pos]
      · rfl
      · exact .inr (.inr (.inl (by rw [hcopies.written]; exact hsize)))
    · rw [finish_of_ne hcopies.encoded hcopies.encodedCrc hentry]
      rfl

theorem process_sparse (hsparse : part.sparse = true) :
    process part sha256 entry pieces = result part sha256 entry pieces.flatten := by
  obtain ⟨bytes, sparse⟩ := part
  obtain rfl : sparse = true := hsparse
  obtain ⟨⟨ok, w⟩, hfeed, hrefines⟩ := feed_refines (valid_start bytes) pieces hsize
  rw [process, hfeed, result, image, if_pos rfl]
  cases ok with
  | false =>
    have hnone : decode bytes (pieces.flatten ++ []) = none := hrefines.1 []
    rw [append_nil] at hnone
    simp only [hnone, map_none, ite_self]
  | true =>
    obtain ⟨hvalid, hrest⟩ : Valid ⟨bytes, true⟩ pieces.flatten w ∧ _ := hrefines
    have hdecode : rest ⟨bytes, true⟩ w [] = decode bytes (pieces.flatten ++ []) := hrest []
    rw [append_nil] at hdecode
    split_ifs with hentry
    · obtain ⟨hfinish, hfile⟩ := finish_eq sha256 hvalid
      obtain ⟨length, crc⟩ := entry
      obtain ⟨rfl, rfl⟩ := hentry
      rw [← hdecode]
      dsimp only
      rw [hfinish]
      cases hi : rest ⟨bytes, true⟩ w [] with
      | none => rfl
      | some i =>
        rw [hfile i hi]
        rfl
    · dsimp only
      rw [finish_of_ne hvalid.2.1.1 hvalid.2.1.2.1 hentry]
      rfl

theorem process_eq_result : process part sha256 entry pieces = result part sha256 entry pieces.flatten := by
  cases hsparse : part.sparse with
  | false => exact process_raw sha256 entry hsize hsparse
  | true => exact process_sparse sha256 entry hsize hsparse

theorem exists_append_of_feed (part : Partition) : ∃ ok w, feed part (start part) pieces = some (ok, w) ∧
    (ok = true → ∀ data : Bytes, data.length < 2 ^ 32 → (append part w data).isSome) := by
  obtain ⟨bytes, sparse⟩ := part
  cases sparse with
  | false =>
    obtain ⟨⟨ok, w⟩, hfeed, hcopies⟩ :=
      (show Copies ⟨bytes, false⟩ [] (start ⟨bytes, false⟩) from copies_start rfl).feed hsize
    refine ⟨ok, w, hfeed, fun hok data hdata => ?_⟩
    rw [if_pos hok] at hcopies
    obtain ⟨r, hr, -⟩ := hcopies.append hdata
    exact isSome_of_eq_some hr
  | true =>
    obtain ⟨⟨ok, w⟩, hfeed, hrefines⟩ := feed_refines (valid_start bytes) pieces hsize
    refine ⟨ok, w, hfeed, fun hok data hdata => ?_⟩
    rw [Refines, if_pos hok] at hrefines
    obtain ⟨r, hr, -⟩ := append_refines hrefines.1 hdata
    exact isSome_of_eq_some hr

end

/-- The pieces of less than 4 GiB in which a stream comes make no difference: two of the ways to cut it into such
pieces give the same result. From every state that is reached the loop of `Append` ends within as many turns as the next
piece has bytes. -/
theorem imageWriter_split (part : Partition) (sha256 : Bytes → Bytes) (entry : ZipEntry) (pieces pieces' : List Bytes)
    (hsame : pieces.flatten = pieces'.flatten) (hsize : ∀ data ∈ pieces, data.length < 2 ^ 32)
    (hsize' : ∀ data ∈ pieces', data.length < 2 ^ 32) :
    process part sha256 entry pieces = process part sha256 entry pieces' ∧
    ∃ ok w, feed part (start part) pieces = some (ok, w) ∧
      (ok = true → ∀ data : Bytes, data.length < 2 ^ 32 → (append part w data).isSome) := by
  refine ⟨?_, exists_append_of_feed hsize part⟩
  rw [process_eq_result sha256 entry hsize, process_eq_result sha256 entry hsize', hsame]

theorem process_singleton_of_crc_ne (hraw : part.sparse = false) (sha256 : Bytes → Bytes) {entry : ZipEntry} {b : UInt8}
    {data : Bytes} (hne : crc32 0 (b :: data) ≠ entry.crc32) : process part sha256 entry [b :: data] = none := by
  have hstart : start part = {} := if_neg (by rw [hraw]; exact Bool.false_ne_true)
  rw [process, hstart, feed]
  rcases append_raw part (w := {}) rfl b data with ⟨v, happend, -⟩ | ⟨v, happend, -, -, -, hcrc, -⟩
  · rw [happend]
    rfl
  · rw [happend, bind_some, if_pos rfl, feed]
    dsimp only
    rw [finish, if_pos (.inr (.inl (by rw [hcrc]; exact hne))), map_none]

end

section

local instance : Crc32 := Crc32.standard

theorem imageWriter_split_pair :
    process ⟨2, false⟩ id ⟨2, checksum 0 [1, 2]⟩ [[1], [], [2]] = process ⟨2, false⟩ id ⟨2, checksum 0 [1, 2]⟩ [[1, 2]] :=
  (imageWriter_split ⟨2, false⟩ id ⟨2, checksum 0 [1, 2]⟩ [[1], [], [2]] [[1, 2]] rfl (by decide) (by decide)).1

/-- Four bytes that bring the register to zero, which more zeros do not change. -/
def ones : Bytes := [255, 255, 255, 255]

theorem checksum_zeros (n : Nat) : checksum 0xffffffff (replicate n 0) = 0xffffffff := by
  induction n with
  | zero => rfl
  | succ n ih =>
    rw [replicate_succ, ← singleton_append, checksum_append]
    exact ih

/-- One `Append` of 4 GiB leaves the checksum as it is, so that `Finish` fails. In two pieces the stream is accepted. -/
theorem imageWriter_split_fails :
    process ⟨2 ^ 32, false⟩ (fun _ => []) ⟨2 ^ 32, 0xffffffff⟩ [ones, replicate (2 ^ 32 - 4) 0] =
        some ([], ones ++ replicate (2 ^ 32 - 4) 0) ∧
      process ⟨2 ^ 32, false⟩ (fun _ => []) ⟨2 ^ 32, 0xffffffff⟩ [ones ++ replicate (2 ^ 32 - 4) 0] = none := by
  have hzeros := checksum_zeros (2 ^ 32 - 4)
  have hcount : (replicate (2 ^ 32 - 4) (0 : UInt8)).length = 2 ^ 32 - 4 := length_replicate
  generalize replicate (2 ^ 32 - 4) (0 : UInt8) = zeros at hzeros hcount ⊢
  have hlength : (ones ++ zeros).length = 2 ^ 32 := by
    rw [length_append, hcount]
    decide
  constructor
  · have hsize : ∀ data ∈ [ones, zeros], data.length < 2 ^ 32 := by
      rw [forall_mem_cons, forall_mem_singleton, hcount]
      decide
    have hcrc : checksum 0 (ones ++ zeros) = 0xffffffff := by
      have hones : checksum 0 ones = 0xffffffff := by decide +kernel
      rw [checksum_append, hones, hzeros]
    have hflatten : [ones, zeros].flatten = ones ++ zeros := by rw [flatten_cons, flatten_singleton]
    rw [process_eq_result _ _ hsize, hflatten, result, if_pos ⟨hlength.symm, hcrc.symm⟩, image,
      if_neg Bool.false_ne_true, if_pos hlength, map_some]
  · refine process_singleton_of_crc_ne rfl _ ?_
    change crc32 0 (ones ++ zeros) ≠ 0xffffffff
    rw [crc32, hlength, Nat.mod_self, take_zero, update_nil]
    decide

end

end AeraRecovery.ImageZip.ImageWriter
