import AeraRecovery.Payload.WriteOperation

namespace AeraRecovery.Payload.WriteOperation

open Lib Checks Storage Cells List

def fileOffsets (block : UInt64) (es : List Extent) : List Nat :=
  es.flatMap fun e => range' (e.start * block).toNat (e.num * block).toNat

/-- What a reader yields up to its end, or `n` bytes of one without an end. -/
def Reader.all (n : Nat) : Reader → Bytes
  | .zeros => replicate n 0
  | .stream rest _ => rest

variable (source : Source) (op : InstallOperation)

def output : Bytes :=
  match openReader source op with
  | .ok reader => reader.all (fileOffsets source.block op.dstExtents).length
  | .error _ => []

def operationCells : List Cell :=
  (fileOffsets source.block op.dstExtents).zip (output source op)

variable (log : List Effect)

def written : List Cell := (writes log).flatMap cells

structure Stored (source : Source) (op : InstallOperation) (log : List Effect) : Prop where
  fits : (output source op).length = (fileOffsets source.block op.dstExtents).length
  cells : ∀ c ∈ operationCells source op, c ∈ written log

def Ahead (offsets : List Nat) (bytes : Bytes) : Prop :=
  ∃ before : List Cell, fileOffsets source.block op.dstExtents = before.map Prod.fst ++ offsets ∧
    output source op = before.map Prod.snd ++ bytes ∧ ∀ c ∈ before, c ∈ written log

def Cursor.offsets (block : UInt64) (c : Cursor) : List Nat := range' c.offset c.left ++ fileOffsets block c.extents

/-- What is known about a task that is in the middle of its operation, or has got through it. -/
def Pc.Sound : Pc → Prop
  | .next c =>
    Ahead source op log (c.offsets source.block) (c.reader.all (c.offsets source.block).length)
  | .recheck c buffer =>
    buffer.length ≤ c.left ∧ Ahead source op log (c.offsets source.block)
      (buffer ++ c.reader.all ((c.offsets source.block).length - buffer.length))
  | .write c count rest =>
    rest.length ≤ c.left ∧ rest.length ≤ count ∧ Ahead source op log (c.offsets source.block)
      (rest ++ c.reader.all ((c.offsets source.block).length - rest.length))
  | .retire | .flush | .publish | .finished (.ok _) => Stored source op log
  | _ => True

variable {source : Source} {op : InstallOperation} {t t' : Target} {l l' : List Effect} {pc pc' : Pc}

variable {k : Nat}

theorem readExact_all {reader reader' : Reader} {buffer : Bytes} {n : Nat}
    (h : reader.readExact k = some (buffer, reader')) (hk : k ≤ n) :
    buffer.length = k ∧ reader.all n = buffer ++ reader'.all (n - k) := by
  cases reader with
  | zeros =>
    obtain ⟨rfl, rfl⟩ := Prod.mk.inj (Option.some.inj h)
    refine ⟨length_replicate, ?_⟩
    rw [Reader.all, Reader.all, ← replicate_add, Nat.add_sub_cancel' hk]
  | stream rest intact =>
    obtain ⟨⟨a, b⟩, hread, heq⟩ := Option.map_eq_some_iff.mp h
    obtain ⟨rfl, rfl⟩ := Prod.mk.inj heq
    exact Bytes.readExact_eq_some_iff.mp hread

theorem all_of_finish {reader : Reader} (h : reader.finish = .ok ()) : reader.all 0 = [] := by
  cases reader with
  | zeros => rfl
  | stream rest intact =>
    cases rest with
    | nil => rfl
    | cons c rest => cases h

@[simp]
theorem writes_append (l l' : List Effect) : writes (l ++ l') = writes l ++ writes l' := filterMap_append

@[simp]
theorem written_append (l l' : List Effect) : written (l ++ l') = written l ++ written l' := by
  rw [written, writes_append, flatMap_append]
  rfl

@[simp]
theorem written_write (offset : Nat) (bytes : Bytes) : written [.write offset bytes] = cells (offset, bytes) :=
  append_nil _

@[simp]
theorem written_sync : written [.sync] = [] := rfl

theorem Stored.mono (h : Stored source op l) (extra : List Effect) : Stored source op (l ++ extra) where
  fits := h.fits
  cells c hc := by
    rw [written_append]
    exact mem_append_left _ (h.cells c hc)

variable {offsets : List Nat} {bytes : Bytes}

theorem Ahead.mono (h : Ahead source op l offsets bytes) (extra : List Effect) :
    Ahead source op (l ++ extra) offsets bytes := by
  obtain ⟨before, hoffsets, hbytes, hwritten⟩ := h
  refine ⟨before, hoffsets, hbytes, fun c hc => ?_⟩
  rw [written_append]
  exact mem_append_left _ (hwritten c hc)

theorem Pc.Sound.mono (h : pc.Sound source op l) (extra : List Effect) : pc.Sound source op (l ++ extra) := by
  cases pc with
  | next c => exact Ahead.mono h extra
  | recheck c buffer => exact ⟨h.1, h.2.mono extra⟩
  | write c count rest => exact ⟨h.1, h.2.1, h.2.2.mono extra⟩
  | retire | flush | publish => exact Stored.mono h extra
  | finished result =>
    cases result with
    | ok => exact Stored.mono h extra
    | error => exact h
  | _ => exact h

theorem Ahead.stored (h : Ahead source op l [] []) : Stored source op l := by
  obtain ⟨before, hoffsets, hbytes, hwritten⟩ := h
  rw [append_nil] at hoffsets hbytes
  constructor
  · rw [hoffsets, hbytes, length_map, length_map]
  · rw [operationCells, hoffsets, hbytes, zip_map']
    intro c hc
    obtain ⟨c', hc', rfl⟩ := mem_map.mp hc
    exact hwritten c' hc'

section

variable {off : Nat} {tail : Bytes} (h : Ahead source op l (range' off k ++ offsets) (bytes ++ tail))
  (hk : bytes.length = k)

include h hk

theorem Ahead.write : Ahead source op (l ++ [.write off bytes]) offsets tail := by
  subst hk
  obtain ⟨before, hoffsets, hbytes, hwritten⟩ := h
  have hlen : (range' off bytes.length).length = bytes.length := length_range'
  refine ⟨before ++ cells (off, bytes), ?_, ?_, fun c hc => ?_⟩
  · rw [hoffsets, map_append, cells, map_fst_zip hlen.le, append_assoc]
  · rw [hbytes, map_append, cells, map_snd_zip hlen.ge, append_assoc]
  · rw [written_append, written_write]
    rcases mem_append.mp hc with hc | hc
    · exact mem_append_left _ (hwritten c hc)
    · exact mem_append_right _ hc

theorem Ahead.cells : ∀ c ∈ cells (off, bytes), c ∈ operationCells source op := by
  subst hk
  obtain ⟨before, hoffsets, hbytes, -⟩ := h
  intro c hc
  rw [operationCells, hoffsets, hbytes, zip_append (by rw [length_map, length_map]), zip_append length_range']
  exact mem_append_right _ (mem_append_left _ hc)

end

theorem Cursor.offsets_advance {c : Cursor} (hk : k ≤ c.left) (block : UInt64) :
    c.offsets block = range' c.offset k ++ (c.advance k).offsets block := by
  simp only [Cursor.offsets, Cursor.advance]
  rw [← append_assoc, range'_append_1, Nat.add_sub_cancel' hk]

theorem Pc.Sound.split {c : Cursor} {count : Nat} {rest : Bytes} (h : (Pc.write c count rest).Sound source op l)
    (hk : k ≤ rest.length) : Ahead source op l (range' c.offset k ++ (c.advance k).offsets source.block)
      (rest.take k ++ (rest.drop k ++ c.reader.all ((c.offsets source.block).length - rest.length))) := by
  obtain ⟨hleft, -, hahead⟩ := h
  rw [← append_assoc, take_append_drop, ← Cursor.offsets_advance (hk.trans hleft)]
  exact hahead

section

variable (h : Move source op t l pc t' l' pc')

include h

theorem Move.sound (hpc : pc.Sound source op l) : pc'.Sound source op l' := by
  cases h with
  | start | skip | cancelled | enter | claim | stopped | rejected | broken | withdrawn | unwritten | raised
  | unflushed | aborted | gaveUp => trivial
  | opened reader hopen =>
    refine ⟨[], rfl, ?_, fun c hc => absurd hc not_mem_nil⟩
    rw [output, hopen]
    rfl
  | extent c e es hleft hextents =>
    have hsame : c.offsets source.block = (c.enter source.block e es).offsets source.block := by
      rw [Cursor.offsets, hleft, hextents]
      rfl
    simp only [Pc.Sound, hsame] at hpc
    exact hpc
  | chunk c k buffer reader hk hread =>
    have hlen : k ≤ (c.offsets source.block).length := by
      rw [Cursor.offsets, length_append, length_range']
      omega
    obtain ⟨rfl, hall⟩ := readExact_all hread hlen
    refine ⟨hk, ?_⟩
    rw [Pc.Sound, hall] at hpc
    exact hpc
  | done c hleft hextents hend =>
    have hnil : c.offsets source.block = [] := by
      rw [Cursor.offsets, hleft, hextents]
      rfl
    rw [Pc.Sound, hnil, length_nil, all_of_finish hend] at hpc
    exact hpc.stored
  | confirmed c buffer => exact ⟨hpc.1, le_rfl, hpc.2⟩
  | wrote c count rest k hk =>
    have hlen : (rest.take k).length = k := length_take_of_le hk
    have hahead := (hpc.split hk).write hlen
    have hadvance := congrArg length (Cursor.offsets_advance (hk.trans hpc.1) source.block)
    rw [length_append, length_range'] at hadvance
    obtain ⟨hleft, hcount, -⟩ := hpc
    refine ⟨?_, ?_, ?_⟩
    · rw [length_drop, Cursor.advance]
      exact Nat.sub_le_sub_right hleft k
    · rw [length_drop]
      omega
    · rw [length_drop, show ((c.advance k).offsets source.block).length - (rest.length - k) =
        (c.offsets source.block).length - rest.length by omega]
      exact hahead
  | counted c count =>
    have hahead := hpc.2.2
    exact hahead
  | retired | last | published => exact hpc
  | flushed => exact Stored.mono hpc _

theorem Move.written (hpc : pc.Sound source op l) :
    ∀ c ∈ written l', c ∈ WriteOperation.written l ∨ c ∈ operationCells source op := by
  have hwrite : ∀ {c : Cursor} {count k : Nat} {rest : Bytes}, (Pc.write c count rest).Sound source op l →
      k ≤ rest.length → ∀ x ∈ WriteOperation.written (l ++ [.write c.offset (rest.take k)]),
        x ∈ WriteOperation.written l ∨ x ∈ operationCells source op := by
    intro c count k rest hsound hk x hx
    rw [written_append, written_write] at hx
    rcases mem_append.mp hx with hx | hx
    · exact .inl hx
    · exact .inr ((hsound.split hk).cells (length_take_of_le hk) x hx)
  cases h with
  | unwritten c count rest k hk | wrote c count rest k hk => exact hwrite hpc hk
  | flushed =>
    intro c hc
    rw [written_append, written_sync, append_nil] at hc
    exact .inl hc
  | _ => exact fun c hc => .inl hc

theorem Move.log_append : ∃ extra, l' = l ++ extra := by
  cases h with
  | unwritten | wrote | flushed => exact ⟨_, rfl⟩
  | _ => exact ⟨[], (append_nil l).symm⟩

end

end AeraRecovery.Payload.WriteOperation
