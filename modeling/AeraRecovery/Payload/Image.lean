import AeraRecovery.Payload.Manifest

namespace AeraRecovery.Payload.Image

open Lib Storage Tiling List Function

variable (output : InstallOperation → Bytes)

def pieces (block : Nat) (op : InstallOperation) : List Piece :=
  split (output op) (op.bytes block)

def dataPieces (block : Nat) (op : InstallOperation) : List Piece :=
  if op.type.empty then [] else pieces output block op

def referenceImage (block size : Nat) (ops : List InstallOperation) : Bytes :=
  patch (replicate size 0) (ops.flatMap (pieces output block))

section

variable {output : InstallOperation → Bytes} {block size : Nat} {ops : List InstallOperation}
  (htiles : Tiles 0 size (ops.flatMap (InstallOperation.bytes block)))
  (hlen : ∀ op ∈ ops, (output op).length = span block op.dstExtents)

include htiles hlen

theorem pieces_ranges {op : InstallOperation} (hop : op ∈ ops) :
    (pieces output block op).map Piece.range = op.bytes block := by
  apply split_ranges
  · intro r hr
    exact htiles.nonempty r (mem_flatMap.mpr ⟨op, hop, hr⟩)
  · rw [hlen op hop]
    exact sum_bytes_eq_span block op.dstExtents

theorem all_pieces_ranges :
    (ops.flatMap (pieces output block)).map Piece.range = ops.flatMap (InstallOperation.bytes block) := by
  rw [map_flatMap]
  exact flatMap_congr fun op hop => pieces_ranges htiles hlen hop

theorem pieces_once (i : Nat) : cover ((ops.flatMap (pieces output block)).map Piece.range) i ≤ 1 := by
  rw [all_pieces_ranges htiles hlen, htiles.once]
  split_ifs <;> omega

theorem pieces_inside {w : Piece} (hw : w ∈ ops.flatMap (pieces output block)) : w.1 + w.2.length ≤ size := by
  have hr : w.range ∈ ops.flatMap (InstallOperation.bytes block) := by
    rw [← all_pieces_ranges htiles hlen]
    exact mem_map_of_mem hw
  have hne : w.1 < w.1 + w.2.length := htiles.nonempty _ hr
  -- the last byte of the piece is covered, so it lies inside the image
  have hlast : 0 < cover (ops.flatMap (InstallOperation.bytes block)) (w.1 + w.2.length - 1) := by
    refine countP_pos_iff.mpr ⟨w.range, hr, decide_eq_true ((covers_range_iff w _).mpr ?_)⟩
    omega
  rw [htiles.once] at hlast
  split_ifs at hlast with h <;> omega

theorem length_referenceImage : (referenceImage output block size ops).length = size := by
  rw [referenceImage, length_patch, length_replicate]
  intro w hw
  rw [length_replicate]
  exact pieces_inside htiles hlen hw

theorem getD_referenceImage (i : Nat) : (referenceImage output block size ops).getD i 0 =
      (lookup (ops.flatMap (pieces output block)) i).getD 0 := by
  rw [referenceImage, getD_patch (pieces_once htiles hlen)]
  congr 1
  rcases lt_or_ge i size with h | h
  · exact getD_replicate 0 h
  · exact getD_eq_default _ _ (by rwa [length_replicate])

theorem gather_referenceImage {op : InstallOperation} (hop : op ∈ ops) :
    gather (referenceImage output block size ops) (op.bytes block) = output op := by
  have hsum : ((op.bytes block).map fun r => r.2 - r.1).sum = (output op).length := by
    rw [hlen op hop]
    exact sum_bytes_eq_span block op.dstExtents
  rw [← pieces_ranges htiles hlen hop, gather_range]
  calc (pieces output block op).flatMap (fun w => (referenceImage output block size ops).slice w.1 w.2.length)
      = (pieces output block op).flatMap Prod.snd := by
        refine flatMap_congr fun w hw => ?_
        have hmem := mem_flatMap.mpr ⟨op, hop, hw⟩
        apply slice_patch (pieces_once htiles hlen) hmem
        rw [← referenceImage, length_referenceImage htiles hlen]
        exact pieces_inside htiles hlen hmem
    _ = output op := split_flatten hsum

theorem referenceImage_perm {ops' : List InstallOperation} (hp : ops.Perm ops') :
    referenceImage output block size ops' = referenceImage output block size ops := by
  have htiles' := htiles.perm (hp.flatMap_right _)
  have hlen' : ∀ op ∈ ops', (output op).length = span block op.dstExtents := fun op hop =>
    hlen op (hp.mem_iff.mpr hop)
  apply ext_getD
  · rw [length_referenceImage htiles hlen, length_referenceImage htiles' hlen']
  · intro i _
    rw [getD_referenceImage htiles hlen, getD_referenceImage htiles' hlen',
      lookup_perm (pieces_once htiles hlen) (hp.flatMap_right _)]

theorem patch_dataPieces (hzero : ∀ op ∈ ops, op.type.empty = true → ∀ b ∈ output op, b = 0) :
    patch (replicate size 0) (ops.flatMap (dataPieces output block)) = referenceImage output block size ops := by
  let data := ops.flatMap (dataPieces output block)
  let full := ops.flatMap (pieces output block)
  have hsub : data.Sublist full := by
    refine Sublist.flatMap_right ops fun op _ => ?_
    rw [dataPieces]
    split_ifs
    · exact nil_sublist _
    · exact Sublist.refl _
  have hfull := pieces_once htiles hlen
  have hdata : ∀ i, cover (data.map Piece.range) i ≤ 1 := fun i => ((hsub.map _).countP_le).trans (hfull i)
  have hinside : ∀ w ∈ data, w.1 + w.2.length ≤ (replicate size (0 : UInt8)).length := by
    intro w hw
    rw [length_replicate]
    exact pieces_inside htiles hlen (hsub.subset hw)
  apply ext_getD
  · rw [length_patch hinside, length_replicate, length_referenceImage htiles hlen]
  · intro i hi
    rw [length_patch hinside, length_replicate] at hi
    rw [getD_patch hdata, getD_referenceImage htiles hlen, getD_replicate 0 hi]
    cases hlook : lookup data i with
    | some b =>
      obtain ⟨w, hw, hc, rfl⟩ := lookup_some hlook
      rw [lookup_of_mem (hfull i) (hsub.subset hw) hc]
    | none =>
      cases hall : lookup full i with
      | none => rfl
      | some b =>
        obtain ⟨w, hw, hc, rfl⟩ := lookup_some hall
        obtain ⟨op, hop, hpiece⟩ := mem_flatMap.mp hw
        by_cases hempty : op.type.empty = true
        · -- a zero or discard operation: its bytes are zeros
          have hlt : i - w.1 < w.2.length := by
            have := (covers_range_iff w i).mp hc
            omega
          have hbyte := hzero op hop hempty _ (mem_of_mem_split hpiece _ (getElem_mem hlt))
          rw [Option.getD_none, Option.getD_some, getD_eq_getElem _ 0 hlt, hbyte]
        · have hmem : w ∈ data := mem_flatMap.mpr ⟨op, hop, by rwa [dataPieces, if_neg hempty]⟩
          rw [lookup_of_mem (hdata i) hmem hc] at hlook
          cases hlook

end

def blocks (p : PartitionUpdate) : List (Nat × Nat) :=
  p.operations.flatMap fun op => op.dstExtents.map fun e => (e.start.toNat, e.start.toNat + e.num.toNat)

theorem cover_blocks {block : Nat} (hblock : 0 < block) (p : PartitionUpdate) (b : Nat) :
    cover (blocks p) b = cover (p.bytes block) (b * block) := by
  have hcovers : ∀ e : Extent, Covers (e.start.toNat, e.start.toNat + e.num.toNat) b ↔
      Covers (e.bytes block) (b * block) := fun e =>
    and_congr (Nat.mul_le_mul_right_iff hblock).symm (Nat.mul_lt_mul_right hblock).symm
  simp only [cover, blocks, PartitionUpdate.bytes, countP_flatMap]
  congr 1
  refine map_congr_left fun op _ => ?_
  simp only [comp_apply, InstallOperation.bytes, countP_map]
  refine countP_congr fun e _ => ?_
  simp only [comp_apply, decide_eq_true_eq]
  exact hcovers e

theorem tiles_blocks {block size : Nat} {p : PartitionUpdate} (hblock : 0 < block) (hdvd : block ∣ size)
    (h : Tiles 0 size (p.bytes block)) : Tiles 0 (size / block) (blocks p) := by
  constructor
  · intro r hr
    obtain ⟨op, hop, hr⟩ := mem_flatMap.mp hr
    obtain ⟨e, he, rfl⟩ := mem_map.mp hr
    have hbytes := h.nonempty (e.bytes block) (mem_flatMap.mpr ⟨op, hop, mem_map_of_mem he⟩)
    exact Nat.lt_of_mul_lt_mul_right hbytes
  · intro b
    obtain ⟨n, rfl⟩ := hdvd
    rw [cover_blocks hblock, h.once, Nat.mul_div_cancel_left n hblock, mul_comm block n]
    simp only [zero_le, true_and, Nat.mul_lt_mul_right hblock]

end AeraRecovery.Payload.Image
