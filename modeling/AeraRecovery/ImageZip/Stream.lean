import AeraRecovery.ImageZip.Writer

namespace AeraRecovery.ImageZip.ImageWriter

open Lib Bytes Crc32 List Option Nat

variable {part : Partition} {seen : Bytes} {w : ImageWriter}

def format (part : Partition) (w : ImageWriter) : Format := ⟨part.bytes, w.block, w.chunkHeader, w.imageCrc⟩

def InChunk (part : Partition) (w : ImageWriter) : Prop :=
  12 ≤ w.chunkHeader ∧ w.chunks < w.totalChunks ∧ known w.chunkType ∧
    w.chunkBytes ≤ part.bytes - w.file.length ∧ (w.chunkBytes = 0 ↔ w.chunkType = crcChunk)

/-- In every state the next turn of the loop uses at least one byte. -/
def Ready (part : Partition) (w : ImageWriter) : Prop :=
  match w.state with
  | .raw => False
  | .header => w.need = 28 ∧ w.buffer.length < 28 ∧ w.file = [] ∧ w.chunks = 0
  | .skipHeader => 12 ≤ w.chunkHeader ∧ 0 < w.remaining ∧ w.buffer = [] ∧ w.file = [] ∧ w.chunks = 0
  | .chunk => 12 ≤ w.chunkHeader ∧ w.need = 12 ∧ w.buffer.length < 12 ∧ w.chunks ≤ w.totalChunks
  | .skipChunk => InChunk part w ∧ 0 < w.remaining
  | .data => 12 ≤ w.chunkHeader ∧ w.chunks < w.totalChunks ∧ 0 < w.remaining ∧
      w.remaining ≤ part.bytes - w.file.length
  | .fill => InChunk part w ∧ w.need = 4 ∧ w.buffer.length < 4
  | .crc => InChunk part w ∧ w.need = 4 ∧ w.buffer.length < 4 ∧ w.chunkType = crcChunk

/-- The states that collect a header, a fill pattern or a checksum. -/
def Buffering (w : ImageWriter) : Prop := w.state = .header ∨ w.state = .chunk ∨ w.state = .fill ∨ w.state = .crc

theorem ready_buffer (hstate : w.Buffering) (hready : Ready part w) : w.buffer.length < w.need ∧
      ∀ used : Bytes, (w.buffer ++ used).length < w.need → Ready part { w with buffer := w.buffer ++ used } := by
  rcases hstate with h | h | h | h <;> simp only [Ready, h] at hready ⊢
  · obtain ⟨hneed, hlen, hrest⟩ := hready
    rw [hneed]
    exact ⟨hlen, fun used hused => ⟨rfl, hused, hrest⟩⟩
  · obtain ⟨hheader, hneed, hlen, hrest⟩ := hready
    rw [hneed]
    exact ⟨hlen, fun used hused => ⟨hheader, rfl, hused, hrest⟩⟩
  · obtain ⟨hchunk, hneed, hlen⟩ := hready
    rw [hneed]
    exact ⟨hlen, fun used hused => ⟨hchunk, rfl, hused⟩⟩
  · obtain ⟨hchunk, hneed, hlen, htype⟩ := hready
    rw [hneed]
    exact ⟨hlen, fun used hused => ⟨hchunk, rfl, hused, htype⟩⟩

theorem readExact_zero (s : Bytes) : readExact 0 s = some ([], s) := readExact_eq_some_iff.mpr ⟨rfl, rfl⟩

theorem length_used (data : Bytes) (n : Nat) : (data.take (min data.length n)).length = min data.length n :=
  length_take_of_le (min_le_left _ _)

section

variable [Crc32]

/-- What the chunks after the current one make of the output and the stream. -/
def next (part : Partition) (w : ImageWriter) : Bytes → Bytes → Option Bytes :=
  tail (w.format part) (w.totalChunks - (w.chunks + 1))

/-- The image that the writer ends with if the stream goes on with `s`, as the whole-stream decoder sees it. -/
def rest (part : Partition) (w : ImageWriter) (s : Bytes) : Option Bytes :=
  match w.state with
  | .raw => none
  | .header => decode part.bytes (w.buffer ++ s)
  | .skipHeader => (readExact w.remaining s).bind fun q => tail (w.format part) w.totalChunks [] q.2
  | .chunk => tail (w.format part) (w.totalChunks - w.chunks) w.file (w.buffer ++ s)
  | .skipChunk => (readExact w.remaining s).bind fun q => body (w.next part) w.file w.chunkType w.chunkBytes q.2
  | .data => body (w.next part) w.file rawChunk w.remaining s
  | .fill => body (w.next part) w.file fillChunk w.chunkBytes (w.buffer ++ s)
  | .crc => body (w.next part) w.file crcChunk w.chunkBytes (w.buffer ++ s)

/-- The counters and checksums agree with the bytes they stand for, and the file is not too long. -/
def Accounted (part : Partition) (seen : Bytes) (w : ImageWriter) : Prop :=
  w.encoded = seen.length ∧ w.encodedCrc = checksum 0 seen ∧ w.written = w.file.length ∧
    w.outputCrc = checksum 0 w.file ∧ w.file.length ≤ part.bytes

def Valid (part : Partition) (seen : Bytes) (w : ImageWriter) : Prop :=
  part.sparse ∧ Accounted part seen w ∧ Ready part w

/-- A step that goes on leads to a valid state that expects what `expected` expects. A step that refuses is right to
do so, and has not written too much. -/
def Refines (part : Partition) (seen : Bytes) (expected : Bytes → Option Bytes) (r : Bool × ImageWriter) : Prop :=
  if r.1 then Valid part seen r.2 ∧ ∀ s, rest part r.2 s = expected s
  else (∀ s, expected s = none) ∧ r.2.file.length ≤ part.bytes

variable {expected : Bytes → Option Bytes}

theorem refines_ok (hv : Valid part seen w)
    (h : ∀ s, rest part w s = expected s) : Refines part seen expected (true, w) := by
  exact ⟨hv, h⟩

theorem refines_refuse (hlen : w.file.length ≤ part.bytes)
    (h : ∀ s, expected s = none) : Refines part seen expected (false, w) := by
  exact ⟨h, hlen⟩

def emit (w : ImageWriter) (data : Bytes) : ImageWriter :=
  { w with
    outputCrc := checksum w.outputCrc data
    file := w.file ++ data
    written := w.written + data.length }

theorem emit_nil (w : ImageWriter) : w.emit [] = w := by
  simp only [emit, checksum_nil, append_nil, length_nil, add_zero]

theorem emit_emit (w : ImageWriter) (a b : Bytes) : (w.emit a).emit b = w.emit (a ++ b) := by
  simp only [emit, checksum_append, append_assoc, length_append, add_assoc]

variable {data : Bytes}

theorem Accounted.emit (h : Accounted part seen w) (hroom : data.length ≤ part.bytes - w.file.length) :
    Accounted part seen (w.emit data) := by
  obtain ⟨hlen, hcrc, hwritten, houtput, hfile⟩ := h
  refine ⟨hlen, hcrc, ?_, ?_, ?_⟩
  · simp only [ImageWriter.emit, hwritten, length_append]
  · simp only [ImageWriter.emit, houtput, checksum_append]
  · simp only [ImageWriter.emit, length_append]
    omega

theorem output_eq (hs : part.sparse) (h : Accounted part seen w) (hsize : data.length < 2 ^ 32)
    (hroom : data.length ≤ part.bytes - w.file.length) : output part w data = (true, w.emit data) := by
  rw [output, h.2.2.1, if_neg (by omega)]
  simp only [hs, if_true, emit, h.2.2.1, crc32_eq_checksum _ hsize]

variable {bytes : Nat}

theorem repeatLoop_eq (hs : part.sparse) (fill : Bytes) {fuel : Nat} (hfuel : bytes ≤ fuel)
    (h : Accounted part seen w) (hroom : bytes ≤ part.bytes - w.file.length) :
    repeatLoop part (cycle fill 65536) fuel w bytes = (true, w.emit (cycle fill bytes)) := by
  induction fuel generalizing w bytes with
  | zero =>
    obtain rfl : bytes = 0 := by omega
    rw [repeatLoop, show cycle fill 0 = [] from rfl, emit_nil]
  | succ fuel ih =>
    cases bytes with
    | zero => rw [repeatLoop, show cycle fill 0 = [] from rfl, emit_nil]
    | succ bytes =>
      have hn : min (bytes + 1) (cycle fill 65536).length ≤ 65536 := by
        rw [length_cycle]
        omega
      rw [repeatLoop, take_cycle fill hn, length_cycle]
      have hdata : (cycle fill (min (bytes + 1) 65536)).length ≤ part.bytes - w.file.length := by
        rw [length_cycle]
        omega
      rw [output_eq hs h (by rw [length_cycle]; omega) hdata, if_pos rfl]
      have hfile : (w.emit (cycle fill (min (bytes + 1) 65536))).file.length =
          w.file.length + min (bytes + 1) 65536 := by
        simp only [emit, length_append, length_cycle]
      rw [ih (by omega) (h.emit hdata) (by rw [hfile]; omega), emit_emit]
      rcases lt_or_ge (bytes + 1) 65536 with hlast | hfull
      · rw [min_eq_left hlast.le, Nat.sub_self, show cycle fill 0 = [] from rfl, append_nil]
      · rw [min_eq_right hfull, ← cycle_add fill (by rfl), Nat.add_sub_cancel' hfull]

theorem repeatBytes_eq (hs : part.sparse) (fill : Bytes) (h : Accounted part seen w)
    (hroom : bytes ≤ part.bytes - w.file.length) :
    repeatBytes part w bytes fill = (true, w.emit (cycle fill bytes)) :=
  repeatLoop_eq hs fill le_rfl h hroom

theorem nextChunk_refines (hs : part.sparse) (h : Accounted part seen w) (hheader : 12 ≤ w.chunkHeader)
    (hchunks : w.chunks < w.totalChunks) : Refines part seen (w.next part w.file) (true, w.nextChunk) := by
  refine refines_ok ⟨hs, h, ?_⟩ fun s => rfl
  exact ⟨hheader, rfl, zero_lt_succ _, hchunks⟩

variable (k : Bytes → Bytes → Option Bytes) (out s : Bytes) (length : Nat)

theorem body_dontCare :
    body k out dontCareChunk length s = k (out ++ cycle [] length) s := by
  simp only [body, show dontCareChunk ≠ rawChunk by decide, show dontCareChunk ≠ fillChunk by decide, if_true,
    if_false]

theorem beginData_refines (hs : part.sparse) (h : Accounted part seen w) (hchunk : InChunk part w) :
    Refines part seen (body (w.next part) w.file w.chunkType w.chunkBytes) (beginData part w) := by
  have ⟨hheader, hchunks, htype, hroom, hlength⟩ := hchunk
  have hempty : Accounted part seen { w with buffer := [] } := h
  unfold beginData
  simp only [repeatBytes_eq hs [] hempty hroom, if_true]
  split_ifs with hraw hfill hcare hcrc
  · have hpos : 0 < w.chunkBytes := by
      refine pos_of_ne_zero fun h0 => ?_
      rw [hlength.mp h0] at hraw
      exact absurd hraw (by decide)
    rw [hraw]
    exact refines_ok ⟨hs, h, hheader, hchunks, hpos, hroom⟩ fun s => rfl
  · refine refines_ok ⟨hs, h, hchunk, rfl, zero_lt_succ _⟩ fun s => ?_
    rw [hfill]
    rfl
  · have hdata : (cycle [] w.chunkBytes).length ≤ part.bytes - w.file.length := by
      rwa [length_cycle]
    rw [hcare, funext (body_dontCare (w.next part) w.file · w.chunkBytes)]
    exact nextChunk_refines hs (hempty.emit hdata) hheader hchunks
  · refine refines_ok ⟨hs, h, hchunk, rfl, zero_lt_succ _, hcrc⟩ fun s => ?_
    rw [hcrc]
    rfl
  · rcases htype with ht | ht | ht | ht <;> contradiction

theorem decode_header {p : Bytes} (hp : p.length = 28) (s : Bytes) : decode bytes (p ++ s) =
      if HeaderFits bytes p then
        (readExact (le16 p 8 - 28) s).bind fun q => tail (ImageZip.format bytes p) (le32 p 20) [] q.2
      else none := by
  rw [decode, readExact_eq_some_iff.mpr ⟨hp, rfl⟩]
  rfl

theorem readHeader_refines (hs : part.sparse) (h : Accounted part seen w) (hlen : w.buffer.length = 28)
    (hfile : w.file = []) (hchunks : w.chunks = 0) :
    Refines part seen (fun s => decode part.bytes (w.buffer ++ s)) (readHeader part w) := by
  simp only [decode_header hlen]
  unfold readHeader
  by_cases hf : HeaderFits part.bytes w.buffer
  · simp only [hf, if_true]
    obtain ⟨hmagic, hmajor, hheader, hchunk, hblock, htotal, hsize⟩ := hf
    rw [if_neg (by omega), if_neg (by omega)]
    by_cases hskip : le16 w.buffer 8 - 28 ≠ 0
    · simp only [hskip, if_true, ne_eq, not_false_eq_true]
      exact refines_ok ⟨hs, h, hchunk.1, pos_of_ne_zero hskip, rfl, hfile, hchunks⟩ fun s => rfl
    · have hzero : le16 w.buffer 8 - 28 = 0 := not_not.mp hskip
      simp only [hzero, ne_eq, not_true_eq_false, if_false, readExact_zero, bind_some]
      refine refines_ok ⟨hs, h, hchunk.1, rfl, zero_lt_succ _, ?_⟩ fun s => ?_
      · rw [hchunks]
        exact zero_le _
      · simp only [rest, hchunks, hfile]
        rfl
  · simp only [hf, if_false]
    split_ifs with hform hsize
    · exact refines_refuse h.2.2.2.2 fun _ => rfl
    · exact refines_refuse h.2.2.2.2 fun _ => rfl
    all_goals
      refine absurd ?_ hf
      constructor <;> omega

theorem tail_chunk {f : Format} {n : Nat} {out p : Bytes} (hp : p.length = 12) (s : Bytes) :
    tail f (n + 1) out (p ++ s) = if ChunkFits f out p then
        (readExact (f.chunkHeader - 12) s).bind fun q => body (tail f n) out (le16 p 0) (le32 p 4 * f.block) q.2
      else none := by
  rw [tail, readExact_eq_some_iff.mpr ⟨hp, rfl⟩]
  rfl

theorem readChunk_refines (hs : part.sparse) (h : Accounted part seen w) (hlen : w.buffer.length = 12)
    (hheader : 12 ≤ w.chunkHeader) :
    Refines part seen (fun s => tail (w.format part) (w.totalChunks - w.chunks) w.file (w.buffer ++ s))
      (readChunk part w) := by
  rcases lt_or_ge w.chunks w.totalChunks with hlt | hge
  · rw [show w.totalChunks - w.chunks = w.totalChunks - (w.chunks + 1) + 1 by omega]
    simp only [tail_chunk hlen]
    by_cases hf : ChunkFits (w.format part) w.file w.buffer
    · simp only [hf, if_true]
      obtain ⟨hroom, htype, hlength, htotal⟩ := hf
      let c : ImageWriter := { w with
        chunkType := le16 w.buffer 0
        chunkBytes := le32 w.buffer 4 * w.block
        remaining := w.chunkHeader - 12
        buffer := [] }
      have hchunk : InChunk part c := ⟨hheader, hlt, htype, hroom, hlength⟩
      have heq : readChunk part w =
          if w.chunkHeader - 12 ≠ 0 then (true, { c with state := .skipChunk }) else beginData part c := by
        refine (if_neg (by omega)).trans ((if_neg ?_).trans ((if_neg (not_not.mpr htype)).trans (if_neg ?_)))
        · rw [h.2.2.1]
          exact not_lt.mpr hroom
        · rw [not_or, not_not]
          refine ⟨?_, htotal⟩
          split_ifs with hcrc
          · exact not_not.mpr (hlength.mpr hcrc)
          · exact fun h0 => hcrc (hlength.mp h0)
      rw [heq]
      split_ifs with hskip
      · exact refines_ok ⟨hs, h, hchunk, pos_of_ne_zero hskip⟩ fun s => rfl
      · have hzero : w.chunkHeader - 12 = 0 := not_not.mp hskip
        have hbegin := beginData_refines (w := c) hs h hchunk
        simp only [show (w.format part).chunkHeader - 12 = 0 from hzero, readExact_zero, bind_some]
        exact hbegin
    · simp only [hf, if_false]
      unfold readChunk
      rw [if_neg (by omega)]
      simp only [h.2.2.1]
      split_ifs with hroom htype hcrc hbad hskip hbad
      all_goals first | exact refines_refuse h.2.2.2.2 fun _ => rfl | skip
      all_goals
        simp only [not_or, ne_eq, not_not] at hbad
        refine absurd ⟨not_lt.mp hroom, htype, ?_, hbad.2⟩ hf
        first | exact iff_of_true hbad.1 hcrc | exact iff_of_false hbad.1 hcrc
  · rw [readChunk, if_pos hge, Nat.sub_eq_zero_of_le hge]
    refine refines_refuse h.2.2.2.2 fun s => if_neg ?_
    rintro ⟨hnil, -⟩
    have := congrArg List.length hnil
    rw [length_append, hlen] at this
    exact absurd this (by simp)

theorem body_raw :
    body k out rawChunk length s = (readExact length s).bind fun r => k (out ++ r.1) r.2 := by
  simp only [body, if_true]

theorem body_fill :
    body k out fillChunk length s = (readExact 4 s).bind fun r => k (out ++ cycle r.1 length) r.2 := by
  simp only [body, show fillChunk ≠ rawChunk by decide, if_true, if_false]

theorem body_crc : body k out crcChunk length s =
      (readExact 4 s).bind fun r => if le32 r.1 0 = (checksum 0 out).toNat then k out r.2 else none := by
  simp only [body, show crcChunk ≠ rawChunk by decide, show crcChunk ≠ fillChunk by decide,
    show crcChunk ≠ dontCareChunk by decide, if_false]

section

variable (hs : part.sparse) (h : Accounted part seen w) (hchunk : InChunk part w) (hlen : w.buffer.length = 4)

include hs h hchunk hlen

theorem readFill_refines :
    Refines part seen (fun s => body (w.next part) w.file fillChunk w.chunkBytes (w.buffer ++ s)) (readFill part w) := by
  obtain ⟨hheader, hchunks, -, hroom, -⟩ := hchunk
  have hdata : (cycle w.buffer w.chunkBytes).length ≤ part.bytes - w.file.length := by
    rwa [length_cycle]
  have heq : readFill part w = (true, (w.emit (cycle w.buffer w.chunkBytes)).nextChunk) := by
    simp only [readFill, repeatBytes_eq hs w.buffer h hroom, if_true]
  simp only [heq, body_fill, readExact_eq_some_iff.mpr ⟨hlen, rfl⟩, bind_some]
  exact nextChunk_refines hs (h.emit hdata) hheader hchunks

theorem readCrc_refines :
    Refines part seen (fun s => body (w.next part) w.file crcChunk w.chunkBytes (w.buffer ++ s)) (readCrc w) := by
  simp only [body_crc, readExact_eq_some_iff.mpr ⟨hlen, rfl⟩, bind_some]
  rw [readCrc, h.2.2.2.1]
  by_cases hcrc : le32 w.buffer 0 = (checksum 0 w.file).toNat
  · simp only [hcrc, ne_eq, not_true_eq_false, if_true, if_false]
    exact nextChunk_refines hs h hchunk.1 hchunk.2.1
  · simp only [hcrc, ne_eq, not_false_eq_true, if_true, if_false]
    exact refines_refuse h.2.2.2.2 fun s => rfl

end

theorem turn_data (hstate : w.state = .data) (data : Bytes) : turn part w data = let n := min data.length w.remaining
      let r := output part w (data.take n)
      if r.1 then
        let w : ImageWriter := { r.2 with remaining := r.2.remaining - n }
        ((true, if w.remaining = 0 then nextChunk w else w), data.drop n)
      else (r, data) := by
  rw [turn, hstate]

theorem turn_skipHeader (hstate : w.state = .skipHeader) (data : Bytes) : turn part w data =
      let n := min data.length w.remaining
      let w : ImageWriter := { w with remaining := w.remaining - n }
      ((true, if w.remaining = 0 then { w with state := .chunk, need := 12 } else w), data.drop n) := by
  rw [turn, hstate]

theorem turn_skipChunk (hstate : w.state = .skipChunk) (data : Bytes) : turn part w data =
      let n := min data.length w.remaining
      let w : ImageWriter := { w with remaining := w.remaining - n }
      (if w.remaining = 0 then beginData part w else (true, w), data.drop n) := by
  rw [turn, hstate]

theorem turn_buffer (hstate : w.Buffering) (data : Bytes) : turn part w data =
      let n := min data.length (w.need - w.buffer.length)
      let w : ImageWriter := { w with buffer := w.buffer ++ data.take n }
      (if w.buffer.length ≠ w.need then (true, w) else complete part w, data.drop n) := by
  rcases hstate with h | h | h | h <;> rw [turn, h]

/-- A turn uses a nonempty prefix of the data and does with it what the decoder does. -/
def Advances (part : Partition) (seen : Bytes) (w : ImageWriter) (data : Bytes) : Prop :=
  ∃ used, data = used ++ (turn part w data).2 ∧ used ≠ [] ∧
    Refines part seen (fun s => rest part w (used ++ s)) (turn part w data).1

theorem advances_take {n : Nat} (hdata : data ≠ []) (hn : 0 < n)
    (hleft : (turn part w data).2 = data.drop (min data.length n))
    (h : Refines part seen (fun s => rest part w (data.take (min data.length n) ++ s)) (turn part w data).1) :
    Advances part seen w data := by
  refine ⟨_, by rw [hleft, take_append_drop], ?_, h⟩
  have hlen := length_pos_iff.mpr hdata
  rw [← length_pos_iff, length_used]
  omega

section

variable (hs : part.sparse) (h : Accounted part seen w)

include hs h

theorem turn_skipHeader_advances (hstate : w.state = .skipHeader)
    (hready : Ready part w) (hdata : data ≠ []) : Advances part seen w data := by
  simp only [Ready, hstate] at hready
  obtain ⟨hheader, hpos, hbuffer, hfile, hchunks⟩ := hready
  refine advances_take hdata hpos (by rw [turn_skipHeader hstate]) ?_
  have hused := length_used data w.remaining
  rw [turn_skipHeader hstate]
  dsimp only
  split_ifs with hzero
  · have hexact : (data.take (min data.length w.remaining)).length = w.remaining := by omega
    refine refines_ok ⟨hs, h, hheader, rfl, ?_, ?_⟩ fun s => ?_
    · rw [hbuffer]
      exact zero_lt_succ _
    · rw [hchunks]
      exact zero_le _
    · simp only [rest, hstate, readExact_eq_some_iff.mpr ⟨hexact, rfl⟩, bind_some, hbuffer, hfile, hchunks]
      rfl
  · refine refines_ok ⟨hs, h, ?_⟩ fun s => ?_
    · simp only [Ready, hstate]
      exact ⟨hheader, pos_of_ne_zero hzero, hbuffer, hfile, hchunks⟩
    · simp only [rest, hstate]
      rw [readExact_append_of_ge s (by omega), hused, bind_map]
      rfl

theorem turn_skipChunk_advances (hstate : w.state = .skipChunk)
    (hready : Ready part w) (hdata : data ≠ []) : Advances part seen w data := by
  simp only [Ready, hstate] at hready
  obtain ⟨hchunk, hpos⟩ := hready
  refine advances_take hdata hpos (by rw [turn_skipChunk hstate]) ?_
  have hused := length_used data w.remaining
  rw [turn_skipChunk hstate]
  dsimp only
  split_ifs with hzero
  · have hexact : (data.take (min data.length w.remaining)).length = w.remaining := by omega
    simp only [rest, hstate, readExact_eq_some_iff.mpr ⟨hexact, rfl⟩, bind_some]
    exact beginData_refines
      (w := { w with state := .skipChunk, remaining := w.remaining - min data.length w.remaining }) hs h hchunk
  · refine refines_ok ⟨hs, h, ?_⟩ fun s => ?_
    · simp only [Ready, hstate]
      exact ⟨hchunk, pos_of_ne_zero hzero⟩
    · simp only [rest, hstate]
      rw [readExact_append_of_ge s (by omega), hused, bind_map]
      rfl

theorem turn_data_advances (hstate : w.state = .data)
    (hready : Ready part w) (hsize : data.length < 2 ^ 32) (hdata : data ≠ []) : Advances part seen w data := by
  simp only [Ready, hstate] at hready
  obtain ⟨hheader, hchunks, hpos, hroom⟩ := hready
  have hused := length_used data w.remaining
  have hfits : (data.take (min data.length w.remaining)).length ≤ part.bytes - w.file.length := by omega
  have hacc := h.emit hfits
  have houtput := output_eq hs h (by omega) hfits
  refine advances_take hdata hpos (by simp only [turn_data hstate, houtput, if_true]) ?_
  simp only [turn_data hstate, houtput, if_true]
  simp only [rest, hstate, body_raw]
  split_ifs with hzero
  · have hexact : (data.take (min data.length w.remaining)).length = w.remaining := by
      simp only [emit] at hzero
      omega
    simp only [readExact_eq_some_iff.mpr ⟨hexact, rfl⟩, bind_some]
    exact nextChunk_refines (w := { w.emit (data.take (min data.length w.remaining)) with
      remaining := (w.emit (data.take (min data.length w.remaining))).remaining - min data.length w.remaining })
      hs hacc hheader hchunks
  · simp only [emit] at hzero
    refine refines_ok ⟨hs, hacc, ?_⟩ fun s => ?_
    · simp only [Ready, emit, hstate, length_append]
      omega
    · simp only [rest, emit, hstate, body_raw]
      rw [readExact_append_of_ge s (by omega), hused, bind_map]
      simp only [Function.comp_def, append_assoc]
      rfl

end

theorem rest_buffer (hstate : w.Buffering) (used s : Bytes) :
    rest part { w with buffer := w.buffer ++ used } s = rest part w (used ++ s) := by
  rcases hstate with h | h | h | h <;> simp only [rest, h, append_assoc] <;> rfl

section

variable (hs : part.sparse) (h : Accounted part seen w) (hstate : w.Buffering) (hready : Ready part w)

include hs h hstate hready

theorem complete_refines {used : Bytes} (hfull : (w.buffer ++ used).length = w.need) :
    Refines part seen (fun s => rest part w (used ++ s)) (complete part { w with buffer := w.buffer ++ used }) := by
  simp only [← rest_buffer hstate]
  have hacc := h
  rcases hstate with hst | hst | hst | hst <;> simp only [Ready, hst] at hready <;> simp only [rest, complete, hst]
  · obtain ⟨hneed, -, hfile, hchunks⟩ := hready
    exact readHeader_refines (w := { w with state := .header, buffer := w.buffer ++ used }) hs hacc
      (hfull.trans hneed) hfile hchunks
  · obtain ⟨hheader, hneed, -, -⟩ := hready
    exact readChunk_refines (w := { w with state := .chunk, buffer := w.buffer ++ used }) hs hacc
      (hfull.trans hneed) hheader
  · obtain ⟨hchunk, hneed, -⟩ := hready
    exact readFill_refines (w := { w with state := .fill, buffer := w.buffer ++ used }) hs hacc hchunk
      (hfull.trans hneed)
  · obtain ⟨hchunk, hneed, -, -⟩ := hready
    exact readCrc_refines (w := { w with state := .crc, buffer := w.buffer ++ used }) hs hacc hchunk
      (hfull.trans hneed)

theorem turn_buffer_advances (hdata : data ≠ []) : Advances part seen w data := by
  obtain ⟨hlen, hkeep⟩ := ready_buffer hstate hready
  refine advances_take hdata (Nat.sub_pos_of_lt hlen) (by rw [turn_buffer hstate]) ?_
  rw [turn_buffer hstate]
  dsimp only
  split_ifs with hfull
  · refine refines_ok ⟨hs, h, hkeep _ ?_⟩ fun s => rest_buffer hstate _ s
    simp only [length_append, length_take] at hfull ⊢
    omega
  · exact complete_refines hs h hstate hready (not_not.mp hfull)

end

theorem turn_advances (h : Valid part seen w) (hsize : data.length < 2 ^ 32) (hdata : data ≠ []) : Advances part seen w data := by
  obtain ⟨hs, hacc, hready⟩ := h
  cases hstate : w.state with
  | raw => simp only [Ready, hstate] at hready
  | header => exact turn_buffer_advances hs hacc (.inl hstate) hready hdata
  | skipHeader => exact turn_skipHeader_advances hs hacc hstate hready hdata
  | chunk => exact turn_buffer_advances hs hacc (.inr (.inl hstate)) hready hdata
  | skipChunk => exact turn_skipChunk_advances hs hacc hstate hready hdata
  | data => exact turn_data_advances hs hacc hstate hready hsize hdata
  | fill => exact turn_buffer_advances hs hacc (.inr (.inr (.inl hstate))) hready hdata
  | crc => exact turn_buffer_advances hs hacc (.inr (.inr (.inr hstate))) hready hdata

theorem Refines.trans {r : Bool × ImageWriter} {used : Bytes}
    (h : Refines part seen (fun s => expected (used ++ s)) r) {after : Bytes} {r' : Bool × ImageWriter}
    (hok : r.1 = true) (h' : Refines part seen (fun s => rest part r.2 (after ++ s)) r') :
    Refines part seen (fun s => expected ((used ++ after) ++ s)) r' := by
  rw [Refines, if_pos hok] at h
  have heq : (fun s => rest part r.2 (after ++ s)) = fun s => expected ((used ++ after) ++ s) := by
    funext s
    rw [h.2, append_assoc]
  rwa [heq] at h'

theorem appendLoop_refines (h : Valid part seen w) {fuel : Nat} (hsize : data.length < 2 ^ 32)
    (hfuel : data.length ≤ fuel) :
    ∃ r, appendLoop part fuel w data = some r ∧ Refines part seen (fun s => rest part w (data ++ s)) r := by
  induction fuel generalizing w data with
  | zero =>
    obtain rfl := length_eq_zero_iff.mp (le_zero.mp hfuel)
    exact ⟨(true, w), by rw [appendLoop], refines_ok h fun s => rfl⟩
  | succ fuel ih =>
    cases data with
    | nil => exact ⟨(true, w), by rw [appendLoop], refines_ok h fun s => rfl⟩
    | cons b data =>
      obtain ⟨used, hdata, hne, hturn⟩ := turn_advances h hsize (cons_ne_nil b data)
      have hlen := congrArg List.length hdata
      have hpos := length_pos_iff.mpr hne
      rw [length_append] at hlen
      have hshort : (turn part w (b :: data)).2.length ≤ fuel := by omega
      rw [appendLoop]
      split_ifs with hok
      · have hvalid : Valid part seen (turn part w (b :: data)).1.2 := by
          rw [Refines, if_pos hok] at hturn
          exact hturn.1
        obtain ⟨r, hr, hrefines⟩ := ih hvalid (by omega) hshort
        refine ⟨r, hr, ?_⟩
        rw [hdata]
        exact hturn.trans hok hrefines
      · refine ⟨_, rfl, ?_⟩
        rw [Refines, if_neg hok] at hturn ⊢
        refine ⟨fun s => ?_, hturn.2⟩
        have hnone := hturn.1 ((turn part w (b :: data)).2 ++ s)
        rwa [← append_assoc, ← hdata] at hnone

theorem append_refines (h : Valid part seen w) (hsize : data.length < 2 ^ 32) :
    ∃ r, append part w data = some r ∧ Refines part (seen ++ data) (fun s => rest part w (data ++ s)) r := by
  obtain ⟨hs, ⟨hlen, hcrc, hacc⟩, hready⟩ := h
  have hvalid : Valid part (seen ++ data)
      { w with encoded := w.encoded + data.length, encodedCrc := crc32 w.encodedCrc data } := by
    refine ⟨hs, ⟨?_, ?_, hacc⟩, hready⟩
    · rw [hlen, length_append]
    · rw [hcrc, crc32_eq_checksum _ hsize, checksum_append]
  exact appendLoop_refines hvalid hsize le_rfl

/-- Whatever the segments are, feeding them does what the decoder does with the whole stream. -/
theorem feed_refines (h : Valid part seen w) (segments : List Bytes) (hsize : ∀ data ∈ segments, data.length < 2 ^ 32) :
    ∃ r, feed part w segments = some r ∧
      Refines part (seen ++ segments.flatten) (fun s => rest part w (segments.flatten ++ s)) r := by
  induction segments generalizing w seen with
  | nil =>
    refine ⟨(true, w), rfl, refines_ok ?_ fun s => rfl⟩
    rwa [flatten_nil, append_nil]
  | cons data segments ih =>
    obtain ⟨r, hr, hrefines⟩ := append_refines h (hsize data mem_cons_self)
    rw [feed, hr, bind_some, flatten_cons]
    rw [Refines] at hrefines
    split_ifs at hrefines ⊢ with hok
    · obtain ⟨r', hr', hrefines'⟩ := ih hrefines.1 (forall_mem_cons.mp hsize).2
      refine ⟨r', hr', ?_⟩
      simp only [hrefines.2] at hrefines'
      simpa only [append_assoc] using hrefines'
    · refine ⟨r, rfl, ?_⟩
      rw [Refines, if_neg hok]
      refine ⟨fun s => ?_, hrefines.2⟩
      rw [append_assoc]
      exact hrefines.1 _

theorem rest_nil_of_ne_chunk (hready : Ready part w) (hstate : w.state ≠ .chunk) : rest part w [] = none := by
  have hempty : ∀ {n : Nat}, 0 < n → readExact n [] = none := fun hn => readExact_eq_none hn
  cases h : w.state <;> simp only [Ready, h] at hready <;> simp only [rest, h, append_nil]
  case header => rw [decode, readExact_eq_none hready.2.1, bind_none]
  case skipHeader => rw [hempty hready.2.1, bind_none]
  case chunk => exact absurd h hstate
  case skipChunk => rw [hempty hready.2, bind_none]
  case data => rw [body_raw, hempty hready.2.2.1, bind_none]
  case fill => rw [body_fill, readExact_eq_none hready.2.2, bind_none]
  case crc => rw [body_crc, readExact_eq_none hready.2.2.1, bind_none]

theorem finish_eq (sha256 : Bytes → Bytes) (h : Valid part seen w) :
    finish part sha256 ⟨seen.length, checksum 0 seen⟩ w = (rest part w []).map sha256 ∧
      ∀ image, rest part w [] = some image → image = w.file := by
  obtain ⟨hs, ⟨hlen, hcrc, hwritten, houtput, -⟩, hready⟩ := h
  by_cases hstate : w.state = .chunk
  · simp only [Ready, hstate] at hready
    obtain ⟨-, -, hbuffer, hchunks⟩ := hready
    rcases hchunks.lt_or_eq with hlt | heq
    · have hnone : rest part w [] = none := by
        simp only [rest, hstate, append_nil, show w.totalChunks - w.chunks = w.totalChunks - (w.chunks + 1) + 1
          by omega, tail, readExact_eq_none hbuffer, bind_none]
      have hfinish : finish part sha256 ⟨seen.length, checksum 0 seen⟩ w = none :=
        if_pos (.inr (.inr (.inr ⟨hs, .inr (.inr (.inl hlt.ne))⟩)))
      rw [hnone, hfinish]
      exact ⟨rfl, by simp⟩
    · have hrest : rest part w [] = tail (w.format part) 0 w.file w.buffer := by
        simp only [rest, hstate, append_nil, heq, Nat.sub_self]
      rw [hrest, tail, finish]
      simp only [hlen, hcrc, hwritten, houtput, hs, hstate, heq, ne_eq, not_true_eq_false, false_or, true_and]
      have hbytes : (w.format part).bytes = part.bytes := rfl
      have himageCrc : (w.format part).imageCrc = w.imageCrc := rfl
      by_cases hdone : w.buffer = [] ∧ w.file.length = (w.format part).bytes ∧
          ((w.format part).imageCrc = 0 ∨ (w.format part).imageCrc = (checksum 0 w.file).toNat)
      · rw [if_pos hdone, if_neg (by rw [← hbytes, ← himageCrc]; tauto)]
        exact ⟨rfl, fun image himage => (Option.some.inj himage).symm⟩
      · rw [if_neg hdone, if_pos (by rw [← hbytes, ← himageCrc]; tauto)]
        exact ⟨rfl, by simp⟩
  · have hfinish : finish part sha256 ⟨seen.length, checksum 0 seen⟩ w = none :=
      if_pos (.inr (.inr (.inr ⟨hs, .inl hstate⟩)))
    rw [rest_nil_of_ne_chunk hready hstate, hfinish]
    exact ⟨rfl, by simp⟩

theorem valid_start (bytes : Nat) : Valid ⟨bytes, true⟩ [] (start ⟨bytes, true⟩) :=
  ⟨rfl, ⟨rfl, (checksum_nil 0).symm, rfl, (checksum_nil 0).symm, zero_le _⟩, rfl, zero_lt_succ _, rfl, rfl⟩

/-- Fed with a stream in any segments of less than 4 GiB, the writer of a sparse partition accepts exactly the well-formed sparse images
of the declared size and has then written what they expand to. It never writes more than the declared size. -/
theorem imageWriter_accepts_iff (bytes : Nat) (segments : List Bytes) (hsize : ∀ data ∈ segments, data.length < 2 ^ 32)
    (sha256 : Bytes → Bytes) :
    ∃ ok w, feed ⟨bytes, true⟩ (start ⟨bytes, true⟩) segments = some (ok, w) ∧ w.file.length ≤ bytes ∧ ∀ image,
        (ok = true ∧ finish ⟨bytes, true⟩ sha256 ⟨segments.flatten.length, checksum 0 segments.flatten⟩ w =
          some (sha256 image) ∧ w.file = image) ↔
        ∃ header chunks, SparseImage bytes segments.flatten image header chunks := by
  obtain ⟨⟨ok, w⟩, hfeed, hrefines⟩ := feed_refines (valid_start bytes) segments hsize
  have hstart : ∀ s, rest ⟨bytes, true⟩ (start ⟨bytes, true⟩) s = decode bytes s := fun s => rfl
  rw [nil_append] at hrefines
  simp only [hstart] at hrefines
  refine ⟨ok, w, hfeed, ?_⟩
  rw [Refines] at hrefines
  split_ifs at hrefines with hok
  · obtain ⟨hvalid, hrest⟩ := hrefines
    obtain ⟨hfinish, hfile⟩ := finish_eq sha256 hvalid
    have hdecode := hrest []
    rw [append_nil] at hdecode
    refine ⟨hvalid.2.1.2.2.2.2, fun image => ?_⟩
    rw [← decode_eq_some_iff, ← hdecode, hfinish]
    constructor
    · rintro ⟨-, hsome, rfl⟩
      obtain ⟨image, himage, -⟩ := map_eq_some_iff.mp hsome
      rw [himage, hfile image himage]
    · intro himage
      exact ⟨hok, by rw [himage, map_some], (hfile image himage).symm⟩
  · refine ⟨hrefines.2, fun image => ?_⟩
    have hnone := hrefines.1 []
    rw [append_nil] at hnone
    rw [← decode_eq_some_iff, hnone]
    exact iff_of_false (fun h => hok h.1) nofun

end

section

local instance : Crc32 := Crc32.standard

/-- A raw and a skipped block of four bytes, cut inside the headers. -/
def twoBlocks : List Bytes :=
  [[0x3a, 0xff, 0x26, 0xed, 1, 0, 0, 0, 28, 0, 12, 0], [4, 0, 0, 0, 2, 0, 0, 0, 2, 0, 0, 0, 0, 0, 0, 0, 0xc1, 0xca], [],
    [0, 0, 1, 0, 0, 0, 16, 0, 0, 0, 5], [6, 7, 8, 0xc3, 0xca, 0, 0, 1, 0, 0, 0, 12, 0, 0, 0]]

theorem imageWriter_accepts_twoBlocks : ∃ w, feed ⟨8, true⟩ (start ⟨8, true⟩) twoBlocks = some (true, w) ∧
    w.file = [5, 6, 7, 8, 0, 0, 0, 0] := by
  obtain ⟨ok, w, hfeed, -, hiff⟩ := imageWriter_accepts_iff 8 twoBlocks (by decide) id
  obtain ⟨rfl, -, hfile⟩ := (hiff [5, 6, 7, 8, 0, 0, 0, 0]).mpr (decode_eq_some_iff.mp (by decide +kernel))
  exact ⟨w, hfeed, hfile⟩

end

end AeraRecovery.ImageZip.ImageWriter
