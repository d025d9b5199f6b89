import AeraRecovery.Lib.Storage

namespace AeraRecovery.Lib.Storage

open List

def Piece.Disjoint (w v : Piece) : Prop := w.2 = [] ∨ v.2 = [] ∨ w.1 + w.2.length ≤ v.1 ∨ v.1 + v.2.length ≤ w.1

instance (w v : Piece) : Decidable (w.Disjoint v) := inferInstanceAs (Decidable (_ ∨ _ ∨ _ ∨ _))

variable {f : Bytes} {ws : List Piece} {w v : Piece} {off : Nat} {d e : Bytes}

theorem Piece.Disjoint.symm (h : w.Disjoint v) : v.Disjoint w := by
  rcases h with h | h | h | h
  · exact .inr (.inl h)
  · exact .inl h
  · exact .inr (.inr (.inr h))
  · exact .inr (.inr (.inl h))

theorem length_pwrite_of_ne (h : d ≠ []) : (pwrite f off d).length = max f.length (off + d.length) := by
  rw [pwrite, if_neg h]
  simp only [length_append, length_take, length_replicate, length_drop]
  omega

theorem pwrite_nil : pwrite f off [] = f := if_pos rfl

theorem pwrite_comm (h : w.Disjoint v) : pwrite (pwrite f w.1 w.2) v.1 v.2 = pwrite (pwrite f v.1 v.2) w.1 w.2 := by
  by_cases hw : w.2 = []
  · rw [hw, pwrite_nil, pwrite_nil]
  by_cases hv : v.2 = []
  · rw [hv, pwrite_nil, pwrite_nil]
  apply ext_getD
  · rw [length_pwrite_of_ne hv, length_pwrite_of_ne hw, length_pwrite_of_ne hw, length_pwrite_of_ne hv]
    omega
  · intro i _
    rw [getD_pwrite, getD_pwrite, getD_pwrite, getD_pwrite]
    rcases (h.resolve_left hw).resolve_left hv with h | h
    · split_ifs <;> first | rfl | omega
    · split_ifs <;> first | rfl | omega

theorem pwrite_append : pwrite f off (d ++ e) = pwrite (pwrite f off d) (off + d.length) e := by
  by_cases hd : d = []
  · rw [hd, pwrite_nil, nil_append, length_nil, Nat.add_zero]
  by_cases he : e = []
  · rw [he, pwrite_nil, append_nil]
  have happend : d ++ e ≠ [] := fun h => hd (append_eq_nil_iff.mp h).1
  apply ext_getD
  · rw [length_pwrite_of_ne happend, length_pwrite_of_ne he, length_pwrite_of_ne hd, length_append]
    omega
  · intro i _
    rw [getD_pwrite, getD_pwrite, getD_pwrite, length_append]
    by_cases hfirst : i < off + d.length
    · by_cases hoff : off ≤ i
      · rw [if_pos ⟨hoff, by omega⟩, if_neg (by omega), if_pos ⟨hoff, hfirst⟩, getD_append _ _ _ _ (by omega)]
      · rw [if_neg (by omega), if_neg (by omega), if_neg (by omega)]
    · by_cases hsecond : i < off + d.length + e.length
      · rw [if_pos ⟨by omega, by omega⟩, if_pos ⟨by omega, hsecond⟩, getD_append_right _ _ _ _ (by omega)]
        congr 1
        omega
      · rw [if_neg (by omega), if_neg (by omega), if_neg (by omega)]

theorem patch_cons : patch f (w :: ws) = patch (pwrite f w.1 w.2) ws := rfl

variable {ws' : List Piece}

theorem patch_append : patch f (ws ++ ws') = patch (patch f ws) ws' := foldl_append

theorem patch_perm (hp : ws.Perm ws') (h : ws.Pairwise Piece.Disjoint) : patch f ws = patch f ws' := by
  induction hp generalizing f with
  | nil => rfl
  | cons w _ ih => exact ih (pairwise_cons.mp h).2
  | swap w v ws =>
    have hvw : v.Disjoint w := (pairwise_cons.mp h).1 w mem_cons_self
    rw [patch_cons, patch_cons, patch_cons, patch_cons, pwrite_comm hvw]
  | trans hp₁ _ ih₁ ih₂ => rw [ih₁ h, ih₂ ((hp₁.pairwise_iff Piece.Disjoint.symm).mp h)]

theorem patch_first (h : (ws ++ w :: ws').Pairwise Piece.Disjoint) :
    patch f (ws ++ w :: ws') = patch (pwrite f w.1 w.2) (ws ++ ws') := by
  rw [patch_perm perm_middle h, patch_cons]

theorem pwrite_patch (h : ∀ w ∈ ws, w.Disjoint v) : pwrite (patch f ws) v.1 v.2 = patch (pwrite f v.1 v.2) ws := by
  induction ws generalizing f with
  | nil => rfl
  | cons w ws ih =>
    rw [forall_mem_cons] at h
    rw [patch_cons, patch_cons, ih h.2, pwrite_comm h.1]

theorem Piece.Disjoint.append (hd : w.Disjoint (off, d)) (he : w.Disjoint (off + d.length, e)) (hne : d ≠ []) :
    w.Disjoint (off, d ++ e) := by
  by_cases hw : w.2 = []
  · exact .inl hw
  by_cases hnil : e = []
  · rw [hnil, append_nil]
    exact hd
  have hlength : 0 < w.2.length := length_pos_iff.mpr hw
  have hd := (hd.resolve_left hw).resolve_left hne
  have he := (he.resolve_left hw).resolve_left hnil
  simp only at hd he
  refine .inr (.inr ?_)
  simp only [length_append]
  omega

theorem length_patch_eq_foldl : (patch f ws).length =
    (ws.filter fun w => w.2 ≠ []).foldl (fun n w => max n (w.1 + w.2.length)) f.length := by
  induction ws generalizing f with
  | nil => rfl
  | cons w ws ih =>
    rw [patch_cons, ih]
    by_cases hw : w.2 = []
    · rw [hw, pwrite_nil, filter_cons_of_neg (by simpa using hw)]
    · rw [length_pwrite_of_ne hw, filter_cons_of_pos (by simpa using hw), foldl_cons]

end AeraRecovery.Lib.Storage
