import AeraRecovery.Lib.Steps
import AeraRecovery.Payload.Direct

namespace AeraRecovery.Payload.Preflight

open Lib Checks Steps Extraction Direct List
open Bytes (ascii)
open PartitionUpdate (partitionName)

def block (manifest : DeltaArchiveManifest) : UInt64 := (manifest.blockSize.getD 4096).toUInt64

/-- What the loop over the manifest has seen: names, the total of the selected sizes, and the selected updates. -/
structure Progress where
  unique : List Bytes := []
  total : UInt64 := 0
  partitions : List PartitionUpdate := []

def incremental (p : PartitionUpdate) (op : InstallOperation) : Bool :=
  p.oldPartitionInfo.isSome || !op.srcExtents.isEmpty || op.srcSha256Hash.isSome || !op.type.full

def checkPartition (names : List Bytes) (block dataSize : UInt64) (seen : Progress) (p : PartitionUpdate) :
    Except Bytes Progress := do
  ensure (p.partitionName ∉ seen.unique) (ascii "Duplicate partition in manifest")
  ensure (p.operations.all fun op => !incremental p op)
    (ascii "Incremental payloads are not supported by Advanced extraction")
  let unique := seen.unique ++ [p.partitionName]
  if p.partitionName ∉ names then pure { seen with unique }
  else do
    let reason := extractionError p block dataSize
    ensure (reason = "") (p.partitionName ++ ascii (": " ++ reason))
    ensure (p.size ≤ 0x7fffffffffffffff - seen.total) (ascii "Selected sizes overflow")
    pure ⟨unique, seen.total + p.size, seen.partitions ++ [p]⟩

def preflight (manifest : DeltaArchiveManifest) (names : List Bytes) (dataSize : UInt64) :
    Except Bytes (List PartitionUpdate) := do
  ensure (names ≠ [] ∧ names.length ≤ 512) (ascii "No valid partition selection")
  ensure names.Nodup (ascii "Duplicate partition selection")
  ensure (manifest.partitions.length ≤ 512) (ascii "Invalid payload manifest")
  let seen ← manifest.partitions.foldlM (checkPartition names (block manifest) dataSize) {}
  ensure (seen.partitions.length = names.length) (ascii "Selected partition is missing from payload")
  pure seen.partitions

theorem checkPartition_ok {names : List Bytes} {block dataSize : UInt64} {seen next : Progress}
    {p : PartitionUpdate} (h : checkPartition names block dataSize seen p = .ok next) :
    p.partitionName ∉ seen.unique ∧ (∀ op ∈ p.operations, op.type.full = true) ∧
      next.unique = seen.unique ++ [p.partitionName] ∧
      next.partitions = seen.partitions ++ [p].filter (fun p => p.partitionName ∈ names) ∧
      (p.partitionName ∈ names → extractionError p block dataSize = "") := by
  simp only [checkPartition, bind_ok_iff, ensure_ok_iff, exists_const] at h
  obtain ⟨hnew, hops, h⟩ := h
  have hfull : ∀ op ∈ p.operations, op.type.full = true := by
    intro op hop
    have hop := all_eq_true.mp hops op hop
    simp only [incremental, Bool.not_eq_true', Bool.or_eq_false_iff, Bool.not_eq_false'] at hop
    exact hop.2
  split_ifs at h with hselected
  · simp only [bind_ok_iff, ensure_ok_iff, exists_const, pure_ok_iff] at h
    obtain ⟨hreason, -, rfl⟩ := h
    exact ⟨hnew, hfull, rfl, by simp [hselected], fun _ => hreason⟩
  · obtain rfl := pure_ok_iff.mp h
    exact ⟨hnew, hfull, rfl, by simp [hselected], fun hin => absurd hin hselected⟩

variable {manifest : DeltaArchiveManifest} {names : List Bytes} {dataSize : UInt64} {ps partitions : List PartitionUpdate}

section

variable {blockSize : UInt64} {out : Progress} (h : ps.foldlM (checkPartition names blockSize dataSize) {} = .ok out)

include h

theorem checkPartitions_selected : out.partitions = ps.filter fun p => p.partitionName ∈ names := by
  refine foldlM_prefix (I := fun done s => s.partitions = done.filter fun p => p.partitionName ∈ names)
    (fun done p s s' hs hstep => ?_) rfl h
  rw [filter_append, (checkPartition_ok hstep).2.2.2.1, hs]

theorem checkPartitions_unique : (ps.map partitionName).Nodup := by
  have hpref := foldlM_prefix (I := fun done (s : Progress) => s.unique = done.map partitionName ∧
    (done.map partitionName).Nodup) (fun done p s s' hs hstep => ?_) ⟨rfl, nodup_nil⟩ h
  · exact hpref.2
  · obtain ⟨hunique, hnodup⟩ := hs
    obtain ⟨hnew, -, hnames, -⟩ := checkPartition_ok hstep
    rw [map_append, map_singleton, ← hunique]
    exact ⟨hnames, nodup_concat (hunique ▸ hnodup) hnew⟩

end

section

variable (h : preflight manifest names dataSize = .ok partitions)

include h

theorem preflight_ok : names ≠ [] ∧ partitions.length = names.length ∧ ∃ seen : Progress, seen.partitions = partitions ∧
    manifest.partitions.foldlM (checkPartition names (block manifest) dataSize) {} = .ok seen := by
  simp only [preflight, bind_ok_iff, ensure_ok_iff, exists_const, pure_ok_iff] at h
  obtain ⟨⟨hne, -⟩, -, -, seen, hseen, hcount, rfl⟩ := h
  exact ⟨hne, hcount, seen, rfl, hseen⟩

theorem preflight_perm :
    partitions.Sublist manifest.partitions ∧ (partitions.map partitionName).Perm names := by
  obtain ⟨-, hcount, seen, rfl, hseen⟩ := preflight_ok h
  have hselected := checkPartitions_selected hseen
  have hsublist : seen.partitions.Sublist manifest.partitions := by
    rw [hselected]
    exact filter_sublist
  have hsubset : seen.partitions.map partitionName ⊆ names := by
    intro name hname
    obtain ⟨p, hp, rfl⟩ := mem_map.mp hname
    rw [hselected] at hp
    exact of_decide_eq_true (mem_filter.mp hp).2
  have hnodup := (checkPartitions_unique hseen).sublist (hsublist.map partitionName)
  refine ⟨hsublist, (hnodup.subperm hsubset).perm_of_length_le ?_⟩
  rw [length_map, hcount]

theorem preflight_accepts : ∀ p ∈ partitions, extractionError p (block manifest) dataSize = "" := by
  obtain ⟨-, -, seen, rfl, hseen⟩ := preflight_ok h
  refine foldlM_invariant
    (I := fun (s : Progress) => ∀ p ∈ s.partitions, extractionError p (block manifest) dataSize = "")
    (fun p _ s s' hs hstep => ?_) (forall_mem_nil _) hseen
  obtain ⟨-, -, -, hpartitions, hreason⟩ := checkPartition_ok hstep
  rw [hpartitions]
  refine forall_mem_append.mpr ⟨hs, fun q hq => ?_⟩
  obtain ⟨hq, hname⟩ := mem_filter.mp hq
  rw [mem_singleton.mp hq] at hname ⊢
  exact hreason (of_decide_eq_true hname)

end

/-- `run` of the direct writer, without the descriptors: the updates that it hands to `write_batch`, with their
sizes. -/
def run (manifest : DeltaArchiveManifest) (block : UInt64) (names : List Bytes) (data : Bytes) :
    Except String (List (PartitionUpdate × UInt64)) :=
  names.mapM fun name => do
    let p ← require (manifest.partitions.find? fun p => p.partitionName = name) "Missing selected partition"
    let size ← validate p block data
    pure (p, size)

section

variable {data : Bytes} (h : preflight manifest names data.length.toUInt64 = .ok partitions)

include h

end

section

end

end AeraRecovery.Payload.Preflight
