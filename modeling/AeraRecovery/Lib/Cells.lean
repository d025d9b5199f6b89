import AeraRecovery.Lib.Storage

namespace AeraRecovery.Lib.Cells

open Storage Tiling List

abbrev Cell := Nat × UInt8

def addresses (rs : List (Nat × Nat)) : List Nat := rs.flatMap fun r => List.range' r.1 (r.2 - r.1)

def cells (w : Piece) : List Cell := (List.range' w.1 w.2.length).zip w.2

variable {f : Bytes} {ws : List Piece}

variable {i : Nat}

theorem mem_addresses {rs : List (Nat × Nat)} : i ∈ addresses rs ↔ ∃ r ∈ rs, Covers r i := by
  rw [addresses, mem_flatMap]
  refine exists_congr fun r => and_congr_right fun _ => ?_
  rw [mem_range'_1, Covers]
  omega

theorem length_addresses (rs : List (Nat × Nat)) : (addresses rs).length = (rs.map fun r => r.2 - r.1).sum := by
  simp only [addresses, length_flatMap, length_range']

theorem mem_cells_iff {w : Piece} {b : UInt8} : (i, b) ∈ cells w ↔ Covers w.range i ∧ w.2.getD (i - w.1) 0 = b := by
  rw [covers_range_iff, cells, mem_iff_getElem]
  simp only [length_zip, length_range', min_self, getElem_zip, getElem_range', one_mul, Prod.mk.injEq]
  constructor
  · rintro ⟨k, hk, rfl, rfl⟩
    rw [Nat.add_sub_cancel_left, getD_eq_getElem _ 0 hk]
    exact ⟨⟨by omega, by omega⟩, rfl⟩
  · rintro ⟨⟨hlow, hhigh⟩, rfl⟩
    have hk : i - w.1 < w.2.length := by omega
    exact ⟨i - w.1, hk, by omega, (getD_eq_getElem _ 0 hk).symm⟩

theorem cell_of_covers {w : Piece} (h : Covers w.range i) : (i, w.2.getD (i - w.1) 0) ∈ cells w :=
  mem_cells_iff.mpr ⟨h, rfl⟩

theorem getD_patch_of_not_covered (h : ∀ w ∈ ws, ¬ Covers w.range i) (f : Bytes) :
    (patch f ws).getD i 0 = f.getD i 0 := by
  induction ws generalizing f with
  | nil => rfl
  | cons w ws ih =>
    rw [forall_mem_cons] at h
    change (patch (pwrite f w.1 w.2) ws).getD i 0 = _
    rw [ih h.2, getD_pwrite, if_neg (mt (covers_range_iff w i).mpr h.1)]

/-- Writes that agree on a byte determine it, in whatever order and however often they are made. -/
theorem getD_patch_of_agree {b : UInt8} (hagree : ∀ w ∈ ws, Covers w.range i → (i, b) ∈ cells w)
    (hcovered : ∃ w ∈ ws, Covers w.range i) (f : Bytes) : (patch f ws).getD i 0 = b := by
  induction ws generalizing f with
  | nil =>
    obtain ⟨w, hw, -⟩ := hcovered
    cases hw
  | cons w ws ih =>
    rw [forall_mem_cons] at hagree
    change (patch (pwrite f w.1 w.2) ws).getD i 0 = b
    by_cases hlater : ∃ v ∈ ws, Covers v.range i
    · exact ih hagree.2 hlater _
    · obtain ⟨v, hv, hc⟩ := hcovered
      rcases mem_cons.mp hv with rfl | hv
      · have hnone : ∀ u ∈ ws, ¬ Covers u.range i := fun u hu hcu => hlater ⟨u, hu, hcu⟩
        rw [getD_patch_of_not_covered hnone, getD_pwrite, if_pos ((covers_range_iff v i).mp hc)]
        exact (mem_cells_iff.mp (hagree.1 hc)).2
      · exact absurd ⟨v, hv, hc⟩ hlater

theorem le_length_pwrite (f : Bytes) (off : Nat) (d : Bytes) : f.length ≤ (pwrite f off d).length := by
  rw [pwrite]
  split_ifs
  · exact le_rfl
  · simp only [length_append, length_take, length_replicate, length_drop]
    omega

theorem end_le_length_pwrite (f : Bytes) (off : Nat) {d : Bytes} (hd : d ≠ []) :
    off + d.length ≤ (pwrite f off d).length := by
  rw [pwrite, if_neg hd]
  simp only [length_append, length_take, length_replicate, length_drop]
  omega

theorem length_pwrite_le {n : Nat} (f : Bytes) {off : Nat} {d : Bytes} (h : d ≠ [] → off + d.length ≤ n) :
    (pwrite f off d).length ≤ max f.length n := by
  rw [pwrite]
  split_ifs with hd
  · exact le_max_left _ _
  · have hend := h hd
    simp only [length_append, length_take, length_replicate, length_drop]
    omega

theorem le_length_patch (f : Bytes) (ws : List Piece) : f.length ≤ (patch f ws).length := by
  induction ws generalizing f with
  | nil => exact le_rfl
  | cons w ws ih => exact (le_length_pwrite f w.1 w.2).trans (ih _)

theorem length_patch_eq_max {n : Nat} (hinside : ∀ w ∈ ws, w.2 ≠ [] → w.1 + w.2.length ≤ n)
    (hreach : ∃ w ∈ ws, w.2 ≠ [] ∧ w.1 + w.2.length = n) (f : Bytes) : (patch f ws).length = max f.length n := by
  have hupper : ∀ (ws : List Piece) (f : Bytes), (∀ w ∈ ws, w.2 ≠ [] → w.1 + w.2.length ≤ n) →
      (patch f ws).length ≤ max f.length n := by
    intro ws
    induction ws with
    | nil => exact fun f _ => le_max_left _ _
    | cons w ws ih =>
      intro f h
      rw [forall_mem_cons] at h
      have hfirst := length_pwrite_le f h.1
      have hrest := ih (pwrite f w.1 w.2) h.2
      change (patch (pwrite f w.1 w.2) ws).length ≤ _
      omega
  have hlower : ∀ (ws : List Piece) (f : Bytes), (∃ w ∈ ws, w.2 ≠ [] ∧ w.1 + w.2.length = n) →
      n ≤ (patch f ws).length := by
    intro ws
    induction ws with
    | nil =>
      rintro f ⟨w, hw, -⟩
      cases hw
    | cons w ws ih =>
      rintro f ⟨v, hv, hne, rfl⟩
      rcases mem_cons.mp hv with rfl | hv
      · exact (end_le_length_pwrite f v.1 hne).trans (le_length_patch _ ws)
      · exact ih _ ⟨v, hv, hne, rfl⟩
  have h₁ := hupper ws f hinside
  have h₂ := hlower ws f hreach
  have h₃ := le_length_patch f ws
  omega

theorem getD_of_mem_zip_gather {rs : List (Nat × Nat)} (h : ∀ r ∈ rs, r.2 ≤ f.length) {b : UInt8}
    (hmem : (i, b) ∈ (addresses rs).zip (gather f rs)) : f.getD i 0 = b := by
  induction rs with
  | nil => cases hmem
  | cons r rs ih =>
    rw [forall_mem_cons] at h
    have hlen : (f.slice r.1 (r.2 - r.1)).length = r.2 - r.1 := by
      rw [Bytes.slice, length_take, length_drop]
      omega
    have hsplit : (addresses (r :: rs)).zip (gather f (r :: rs)) =
        cells (r.1, f.slice r.1 (r.2 - r.1)) ++ (addresses rs).zip (gather f rs) := by
      rw [addresses, gather, flatMap_cons, flatMap_cons, zip_append (by rw [length_range', hlen]), cells, hlen]
      rfl
    rw [hsplit] at hmem
    rcases mem_append.mp hmem with hmem | hmem
    · obtain ⟨hc, hb⟩ := mem_cells_iff.mp hmem
      rw [covers_range_iff, hlen] at hc
      have hlt : i - r.1 < r.2 - r.1 := by omega
      rw [← hb, getD_slice hlt, Nat.add_sub_cancel' hc.1]
    · exact ih h.2 hmem

end AeraRecovery.Lib.Cells
