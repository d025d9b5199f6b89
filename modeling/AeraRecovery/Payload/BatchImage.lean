import AeraRecovery.Payload.BatchRuns
import AeraRecovery.Payload.Image

namespace AeraRecovery.Payload.WriteBatch

open Lib Storage Tiling Cells Direct Extraction WriteOperation Image List

section

variable {source : Source} {p : PartitionUpdate} (hvalid : validate p source.block source.data = .ok p.size)

include hvalid

theorem tiles_of_valid : Tiles 0 p.size.toNat (p.bytes source.block.toNat) :=
  ((validate_ok_iff _ _ _ _).mp hvalid).2.2.2.1

variable {op : InstallOperation}

theorem fileOffsets_eq (hop : op ∈ p.operations) :
    fileOffsets source.block op.dstExtents = addresses (op.bytes source.block.toNat) := by
  obtain ⟨header, hplain, -⟩ := (validate_ok_iff _ _ _ _).mp hvalid
  rw [fileOffsets, addresses, InstallOperation.bytes, flatMap_map]
  refine flatMap_congr fun e he => ?_
  have hin := (hplain op hop).extents e he
  rw [hin.toNat_start, hin.toNat_num, e.bytes_length]
  rfl

theorem length_fileOffsets (hop : op ∈ p.operations) :
    (fileOffsets source.block op.dstExtents).length = span source.block.toNat op.dstExtents := by
  rw [fileOffsets_eq hvalid hop, length_addresses]
  exact sum_bytes_eq_span source.block.toNat op.dstExtents

theorem cell_inside (hop : op ∈ p.operations) {c : Cell}
    (hc : c ∈ operationCells source op) : ∃ r ∈ p.bytes source.block.toNat, Covers r c.1 := by
  have hmem : c.1 ∈ fileOffsets source.block op.dstExtents := (of_mem_zip hc).1
  rw [fileOffsets_eq hvalid hop] at hmem
  obtain ⟨r, hr, hcovers⟩ := mem_addresses.mp hmem
  exact ⟨r, mem_flatMap.mpr ⟨op, hop, hr⟩, hcovers⟩

theorem covers_lt {r : Nat × Nat} (hr : r ∈ p.bytes source.block.toNat) {x : Nat} (hx : Covers r x) :
    x < p.size.toNat := by
  have hpos : 0 < cover (p.bytes source.block.toNat) x := countP_pos_iff.mpr ⟨r, hr, decide_eq_true hx⟩
  rw [(tiles_of_valid hvalid).once] at hpos
  split_ifs at hpos with h
  · exact h.2
  · omega

theorem bytes_inside {r : Nat × Nat} (hr : r ∈ p.bytes source.block.toNat) : r.1 < r.2 ∧ r.2 ≤ p.size.toNat := by
  have hne := (tiles_of_valid hvalid).nonempty r hr
  have hlast : Covers r (r.2 - 1) := ⟨by omega, by omega⟩
  have := covers_lt hvalid hr hlast
  omega

section

variable {log : List Effect} (hstored : ∀ op ∈ p.operations, Stored source op log)

include hstored

theorem length_output : ∀ op ∈ p.operations, (output source op).length = span source.block.toNat op.dstExtents := by
  intro op hop
  rw [(hstored op hop).fits, length_fileOffsets hvalid hop]

theorem getD_reference (hop : op ∈ p.operations) {c : Cell} (hc : c ∈ operationCells source op) :
    (referenceImage (output source) source.block.toNat p.size.toNat p.operations).getD c.1 0 = c.2 := by
  have htiles := tiles_of_valid hvalid
  have hlen := length_output hvalid hstored
  have hinside : ∀ r ∈ op.bytes source.block.toNat,
      r.2 ≤ (referenceImage (output source) source.block.toNat p.size.toNat p.operations).length := by
    intro r hr
    rw [length_referenceImage htiles hlen]
    exact (bytes_inside hvalid (mem_flatMap.mpr ⟨op, hop, hr⟩)).2
  refine getD_of_mem_zip_gather hinside ?_
  rw [gather_referenceImage htiles hlen hop, ← fileOffsets_eq hvalid hop]
  exact hc

theorem covered {x : Nat} (hx : x < p.size.toNat) : ∃ w ∈ writes log, Covers w.range x := by
  obtain ⟨r, hr, hcovers⟩ : ∃ r ∈ p.bytes source.block.toNat, Covers r x := by
    refine cover_pos ?_
    rw [(tiles_of_valid hvalid).once, if_pos ⟨Nat.zero_le x, hx⟩]
    exact one_pos
  obtain ⟨op, hop, hr⟩ := mem_flatMap.mp hr
  have hmem : x ∈ fileOffsets source.block op.dstExtents := by
    rw [fileOffsets_eq hvalid hop]
    exact mem_addresses.mpr ⟨r, hr, hcovers⟩
  obtain ⟨k, hk, rfl⟩ := mem_iff_getElem.mp hmem
  have hfits := (hstored op hop).fits
  have hcell : ((fileOffsets source.block op.dstExtents)[k], (output source op)[k]) ∈ operationCells source op := by
    rw [operationCells, ← getElem_zip (h := by rw [length_zip]; omega)]
    exact getElem_mem _
  obtain ⟨w, hw, hc⟩ := mem_flatMap.mp ((hstored op hop).cells _ hcell)
  exact ⟨w, hw, (mem_cells_iff.mp hc).1⟩

end

section

variable {log : List Effect} (hcells : ∀ c ∈ written log, ∃ op ∈ p.operations, c ∈ operationCells source op)

include hcells

theorem write_inside {w : Piece} (hw : w ∈ writes log) {x : Nat} (hx : Covers w.range x) :
    ∃ r ∈ p.bytes source.block.toNat, Covers r x := by
  obtain ⟨op, hop, hc⟩ := hcells _ (mem_flatMap.mpr ⟨w, hw, cell_of_covers hx⟩)
  exact cell_inside hvalid hop hc

theorem write_end_le {w : Piece} (hw : w ∈ writes log) (hne : w.2 ≠ []) : w.1 + w.2.length ≤ p.size.toNat := by
  have hlength := length_pos_of_ne_nil hne
  have hlast : Covers w.range (w.1 + w.2.length - 1) := (covers_range_iff _ _).mpr ⟨by omega, by omega⟩
  obtain ⟨r, hr, hcovers⟩ := write_inside hvalid hcells hw hlast
  have := covers_lt hvalid hr hcovers
  omega

theorem patch_writes (hstored : ∀ op ∈ p.operations, Stored source op log) (f : Bytes) : patch f (writes log) =
      referenceImage (output source) source.block.toNat p.size.toNat p.operations ++ f.drop p.size.toNat := by
  have hsize := length_referenceImage (tiles_of_valid hvalid) (length_output hvalid hstored)
  have hpos : 0 < p.size.toNat := ((validate_ok_iff _ _ _ _).mp hvalid).1.pos
  have hend : ∀ w ∈ writes log, w.2 ≠ [] → w.1 + w.2.length ≤ p.size.toNat :=
    fun w hw hne => write_end_le hvalid hcells hw hne
  apply ext_getD
  · rw [length_patch_eq_max hend, length_append, hsize, length_drop]
    · omega
    · have hlast : p.size.toNat - 1 < p.size.toNat := by omega
      obtain ⟨w, hw, hcovers⟩ := covered hvalid hstored hlast
      rw [covers_range_iff] at hcovers
      have hne : w.2 ≠ [] := by
        intro hnil
        rw [hnil, length_nil] at hcovers
        omega
      have := hend w hw hne
      exact ⟨w, hw, hne, by omega⟩
  · intro x _
    rcases lt_or_ge x p.size.toNat with hx | hx
    · rw [getD_append _ _ _ _ (by rwa [hsize])]
      refine getD_patch_of_agree (fun w hw hcovers => ?_) (covered hvalid hstored hx) f
      have hc := cell_of_covers hcovers
      obtain ⟨op, hop, hcell⟩ := hcells _ (mem_flatMap.mpr ⟨w, hw, hc⟩)
      rwa [getD_reference hvalid hstored hop hcell]
    · have hnone : ∀ w ∈ writes log, ¬ Covers w.range x := by
        intro w hw hcovers
        obtain ⟨r, hr, hr'⟩ := write_inside hvalid hcells hw hcovers
        have := covers_lt hvalid hr hr'
        omega
      rw [getD_patch_of_not_covered hnone, getD_append_right _ _ _ _ (by rwa [hsize]), hsize]
      simp only [getD_eq_getElem?_getD, getElem?_drop]
      rw [Nat.add_sub_cancel' hx]

end

theorem output_empty (hop : op ∈ p.operations) (hempty : op.type.empty = true) :
    output source op = replicate (span source.block.toNat op.dstExtents) 0 := by
  have hopen : openReader source op = .ok .zeros := if_pos hempty
  rw [output, hopen, ← length_fileOffsets hvalid hop]
  rfl

theorem contents_of_stored {log : List Effect}
    (hcells : ∀ c ∈ written log, ∃ op ∈ p.operations, c ∈ operationCells source op)
    (hstored : ∀ op ∈ p.operations, Stored source op log) (f : Bytes) : patch f (writes log) =
      referenceImage (output source) source.block.toNat p.size.toNat p.operations ++ f.drop p.size.toNat ∧
    Tiles 0 (p.size.toNat / source.block.toNat) (blocks p) ∧
    ∀ op ∈ p.operations, gather (patch f (writes log)) (op.bytes source.block.toNat) = output source op ∧
      (op.type.empty = true → output source op = replicate (span source.block.toNat op.dstExtents) 0) := by
  have htiles := tiles_of_valid hvalid
  have hlen := length_output hvalid hstored
  have header := ((validate_ok_iff _ _ _ _).mp hvalid).1
  have hcontents := patch_writes hvalid hcells hstored f
  refine ⟨hcontents, tiles_blocks header.blockSize.pos header.aligned htiles, fun op hop => ?_⟩
  refine ⟨?_, output_empty hvalid hop⟩
  rw [hcontents, gather_append, gather_referenceImage htiles hlen hop]
  intro r hr
  rw [length_referenceImage htiles hlen]
  exact bytes_inside hvalid (mem_flatMap.mpr ⟨op, hop, hr⟩)

end

variable {b : Batch} {s s' : State} {a : Action}

def Owned (b : Batch) (s : State) : Prop :=
  ∀ object, s.log object ≠ [] → ∃ i : Nat, ∃ file : File, b.files[i]? = some file ∧ file.object = object

theorem Owned.step (hs : Owned b s) (h : step b s a = some s') : Owned b s' := by
  intro object hne
  cases a with
  | start j k =>
    obtain ⟨-, -, rfl⟩ := startStep_spec h
    exact hs object hne
  | skip j k =>
    obtain ⟨-, -, rfl, -⟩ := skipStep_spec h
    exact hs object hne
  | task j k outcome =>
    obtain ⟨file, op, m, pc, hfile, -, -, -, rfl⟩ := runTask_spec h
    by_cases hobject : object = file.object
    · exact ⟨j, file, hfile, hobject.symm⟩
    · apply hs object
      simpa only [Function.update_of_ne hobject] using hne
  | reporter printed =>
    rw [(reporterStep_move h).view.2.1] at hne
    exact hs object hne
  | main succeeded =>
    rw [(mainStep_move h).view.2.1] at hne
    exact hs object hne

theorem owned_of_run {actions : List Action} (h : run b actions (start b) = some s) : Owned b s :=
  Steps.run_invariant (fun _ _ _ hs hstep => hs.step hstep) (fun _ hne => absurd rfl hne) h

def contents (initial : Object → Bytes) (s : State) (object : Object) : Bytes :=
  patch (initial object) (writes (s.log object))

/-- On success every target holds its reference image and, behind it, what it held before. On no run is a byte written
outside the extents of a valid update, nor any byte if an update is not valid or two targets are one file. -/
theorem writeBatch_writes (b : Batch) (initial : Object → Bytes) (actions : List Action) (s : State)
    (h : run b actions (start b) = some s) : (s.main = .returned (.ok ()) →
      ∀ (i : Nat) (file : File) (p : PartitionUpdate), b.files[i]? = some file → b.parts[i]? = some p →
      contents initial s file.object = referenceImage (output b.toSource) b.block.toNat p.size.toNat p.operations ++
          (initial file.object).drop p.size.toNat ∧ Tiles 0 (p.size.toNat / b.block.toNat) (blocks p) ∧
      ∀ op ∈ p.operations, gather (contents initial s file.object) (op.bytes b.block.toNat) = output b.toSource op ∧
        (op.type.empty = true → output b.toSource op = replicate (span b.block.toNat op.dstExtents) 0)) ∧
    (∀ object, ∀ w ∈ writes (s.log object), ∃ i : Nat, ∃ file : File, ∃ p : PartitionUpdate,
      b.files[i]? = some file ∧ file.object = object ∧ b.parts[i]? = some p ∧ validate p b.block b.data = .ok p.size ∧
      ∀ x, Covers w.range x → ∃ r ∈ p.bytes b.block.toNat, Covers r x) ∧
    ((∃ p ∈ b.parts, ∀ size, validate p b.block b.data ≠ .ok size) ∨ ¬ (b.files.map File.object).Nodup →
      ∀ object, s.log object = []) := by
  cases hprecheck : precheck b with
  | error message =>
    have hidle := idle_of_run hprecheck h
    refine ⟨fun hmain => ?_, fun object w hw => ?_, fun _ object => by rw [hidle.log]⟩
    · rcases hidle.main with hcheck | ⟨message, hreturned⟩
      · rw [hcheck] at hmain
        cases hmain
      · rw [hreturned] at hmain
        cases hmain
    · rw [hidle.log] at hw
      cases hw
  | ok admitted =>
    have hb := precheck_ok hprecheck
    have hsound := sound_of_run hb h
    refine ⟨fun hmain i file p hfile hp => ?_, fun object w hw => ?_, fun hbad => ?_⟩
    · have hvalid := hb.valid p (mem_of_getElem? hp)
      have hview := hsound i file hfile
      have hfinished := finished_of_result hprecheck h (by rw [hmain]; rfl) (List.getElem?_eq_some_iff.mp hp).1
      rw [operations_eq hp] at hview hfinished
      have hstored : ∀ op ∈ p.operations, Stored b.toSource op (s.log file.object) := by
        intro op hop
        obtain ⟨k, hk, rfl⟩ := mem_iff_getElem.mp hop
        have hpc : (s.pc i k).Sound b.toSource _ (s.log file.object) :=
          hview.tasks k _ (getElem?_eq_getElem hk)
        rw [hfinished k hk] at hpc
        exact hpc
      exact contents_of_stored hvalid hview.cells hstored (initial file.object)
    · obtain ⟨i, file, hfile, rfl⟩ := owned_of_run h object fun hnil => by rw [hnil] at hw; cases hw
      obtain ⟨p, hp, -, hvalid⟩ := hb.part hfile
      have hview := hsound i file hfile
      rw [operations_eq hp] at hview
      exact ⟨i, file, p, hfile, rfl, hp, hvalid, fun x hx => write_inside hvalid hview.cells hw hx⟩
    · rcases hbad with ⟨p, hp, hinvalid⟩ | halias
      · exact absurd (hb.valid p hp) (hinvalid _)
      · exact absurd hb.objects halias

section

/-- Two blocks of one byte: the first zeros, the second from the payload. -/
def sampleImage : PartitionUpdate where
  partitionName := Bytes.ascii "boot"
  newPartitionInfo := some ⟨some 2, some (replicate 32 0)⟩
  operations := [
    { type := .replace, dataOffset := some 0, dataLength := some 1, dstExtents := [⟨some 1, some 1⟩],
      dataSha256Hash := some (replicate 32 0) },
    { type := .zero, dstExtents := [⟨some 0, some 1⟩] }]

def sampleFile : File where
  metadata := ⟨true, 7, 0, 0⟩

def sampleBatch : Batch where
  libraries := ⟨fun _ => replicate 32 0, fun _ => ([], false), fun _ => .error "", fun _ => .error ""⟩
  block := 1
  data := [7]
  files := [sampleFile]
  parts := [sampleImage]
  workers := 2

/-- Both tasks are started before either writes, and all calls get through. -/
def sampleActions : List Action :=
  replicate 3 (.main true) ++ [.start 0 0, .start 0 1] ++ replicate 5 (.task 0 1 (.wrote 1)) ++
    replicate 10 (.task 0 0 (.wrote 1)) ++ replicate 7 (.task 0 1 (.wrote 1)) ++
    [.main true, .reporter true, .main true, .main true, .main true, .main true]

theorem writeBatch_writes_sampleBatch :
    ∃ s, run sampleBatch sampleActions (start sampleBatch) = some s ∧ s.main = .returned (.ok ()) ∧
      contents (fun _ => [9, 9, 9]) s sampleFile.object =
        referenceImage (output sampleBatch.toSource) 1 2 sampleImage.operations ++ [9] := by
  obtain ⟨s, hrun, hmain⟩ : ∃ s, run sampleBatch sampleActions (start sampleBatch) = some s ∧
      s.main = .returned (.ok ()) := ⟨_, rfl, rfl⟩
  exact ⟨s, hrun, hmain,
    ((writeBatch_writes sampleBatch (fun _ => [9, 9, 9]) sampleActions s hrun).1 hmain 0 sampleFile sampleImage
      rfl rfl).1⟩

end

end AeraRecovery.Payload.WriteBatch
