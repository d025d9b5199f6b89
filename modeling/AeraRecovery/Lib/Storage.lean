import AeraRecovery.Lib.Bytes
import AeraRecovery.Lib.Tiling

namespace AeraRecovery.Lib.Storage

open Tiling List

variable (f : Bytes)

/-- The file after the bytes `d` were written at `off`. A gap before `off` reads as zeros. -/
def pwrite (off : Nat) (d : Bytes) : Bytes :=
  if d = [] then f else f.take off ++ replicate (off - f.length) 0 ++ d ++ f.drop (off + d.length)

abbrev Piece := Nat × Bytes

def Piece.range (w : Piece) : Nat × Nat := (w.1, w.1 + w.2.length)

variable (ws : List Piece)

def patch : Bytes := ws.foldl (fun f w => pwrite f w.1 w.2) f

def lookup (i : Nat) : Option UInt8 :=
  (ws.find? fun w => Covers w.range i).map fun w => w.2.getD (i - w.1) 0

/-- The bytes of `f` in the given ranges, one range after the other. -/
def gather (rs : List (Nat × Nat)) : Bytes := rs.flatMap fun r => f.slice r.1 (r.2 - r.1)

def split (d : Bytes) : List (Nat × Nat) → List Piece
  | [] => []
  | r :: rs => (r.1, d.take (r.2 - r.1)) :: split (d.drop (r.2 - r.1)) rs

variable {f : Bytes} {ws : List Piece} {d : Bytes}

theorem length_pwrite {off : Nat} (h : off + d.length ≤ f.length) : (pwrite f off d).length = f.length := by
  rw [pwrite]
  split_ifs with hd
  · rfl
  · simp only [length_append, length_take, length_replicate, length_drop]
    omega

theorem getD_pwrite (off : Nat) (d : Bytes) (i : Nat) :
    (pwrite f off d).getD i 0 = if off ≤ i ∧ i < off + d.length then d.getD (i - off) 0 else f.getD i 0 := by
  rw [pwrite]
  split_ifs with hd hi hi
  · simp only [hd, length_nil] at hi
    omega
  · rfl
  all_goals
    have hpad : (f.take off ++ replicate (off - f.length) 0).length = off := by
      simp only [length_append, length_take, length_replicate]
      omega
  · rw [getD_append _ _ _ _ (by rw [length_append, hpad]; exact hi.2),
      getD_append_right _ _ _ _ (by rw [hpad]; exact hi.1), hpad]
  · rcases lt_or_ge i off with hlt | hge
    · rw [append_assoc, getD_append _ _ _ _ (by rw [hpad]; exact hlt)]
      rcases lt_or_ge i f.length with hf | hf
      · rw [getD_append _ _ _ _ (by rw [length_take]; omega)]
        simp only [getD_eq_getElem?_getD, getElem?_take_of_lt hlt]
      · rw [getD_eq_default _ _ hf]
        have htake : (f.take off).length ≤ i := by
          rw [length_take]
          omega
        rw [getD_append_right _ _ _ _ htake, getD_replicate 0 (by rw [length_take]; omega)]
    · have hpast : off + d.length ≤ i := by omega
      rw [getD_append_right _ _ _ _ (by rw [length_append, hpad]; exact hpast), length_append, hpad]
      simp only [getD_eq_getElem?_getD, getElem?_drop]
      rw [Nat.add_sub_cancel' hpast]

theorem covers_range_iff (w : Piece) (i : Nat) : Covers w.range i ↔ w.1 ≤ i ∧ i < w.1 + w.2.length := Iff.rfl

theorem lookup_eq_none_iff (i : Nat) : lookup ws i = none ↔ cover (ws.map Piece.range) i = 0 := by
  rw [lookup, Option.map_eq_none_iff, find?_eq_none, cover, countP_eq_zero]
  simp only [forall_mem_map]

theorem lookup_of_mem {w : Piece} {i : Nat} (hone : cover (ws.map Piece.range) i ≤ 1) (hw : w ∈ ws)
    (hc : Covers w.range i) : lookup ws i = some (w.2.getD (i - w.1) 0) := by
  induction ws with
  | nil => cases hw
  | cons v ws ih =>
    rw [map_cons, cover_cons] at hone
    by_cases hv : Covers v.range i
    · have hrest : cover (ws.map Piece.range) i = 0 := by
        rw [if_pos hv] at hone
        omega
      rcases mem_cons.mp hw with rfl | hw
      · simp only [lookup, find?_cons, hc, decide_true, Option.map_some]
      · have hpos : 0 < cover (ws.map Piece.range) i :=
          countP_pos_iff.mpr ⟨w.range, mem_map_of_mem hw, decide_eq_true hc⟩
        omega
    · rcases mem_cons.mp hw with rfl | hw
      · exact absurd hc hv
      · simp only [lookup, find?_cons, hv, decide_false]
        exact ih (by omega) hw

theorem lookup_some {i : Nat} {b : UInt8} (h : lookup ws i = some b) :
    ∃ w ∈ ws, Covers w.range i ∧ b = w.2.getD (i - w.1) 0 := by
  obtain ⟨w, hw, rfl⟩ := Option.map_eq_some_iff.mp h
  exact ⟨w, mem_of_find?_eq_some hw, by simpa using find?_some hw, rfl⟩

theorem lookup_perm {ws' : List Piece} (hone : ∀ i, cover (ws.map Piece.range) i ≤ 1) (hp : ws.Perm ws') (i : Nat) :
    lookup ws i = lookup ws' i := by
  have hcover := cover_perm (hp.map Piece.range) i
  cases h : lookup ws' i with
  | none =>
    rw [lookup_eq_none_iff] at h ⊢
    omega
  | some b =>
    obtain ⟨w, hw, hc, rfl⟩ := lookup_some h
    exact lookup_of_mem (hone i) (hp.mem_iff.mpr hw) hc

/-- Pieces that do not overlap may be written in any order: the file holds what the pieces say, and what it held
before wherever they say nothing. -/
theorem getD_patch (hone : ∀ i, cover (ws.map Piece.range) i ≤ 1) (f : Bytes) (i : Nat) :
    (patch f ws).getD i 0 = (lookup ws i).getD (f.getD i 0) := by
  induction ws generalizing f with
  | nil => rfl
  | cons w ws ih =>
    have hone' : ∀ j, cover (ws.map Piece.range) j ≤ 1 := by
      intro j
      have := hone j
      rw [map_cons, cover_cons] at this
      omega
    change (patch (pwrite f w.1 w.2) ws).getD i 0 = _
    rw [ih hone', getD_pwrite]
    by_cases hc : Covers w.range i
    · have hrest : lookup ws i = none := by
        have := hone i
        rw [map_cons, cover_cons, if_pos hc] at this
        rw [lookup_eq_none_iff]
        omega
      rw [lookup_of_mem (hone i) mem_cons_self hc, hrest, if_pos ((covers_range_iff w i).mp hc)]
      rfl
    · rw [if_neg (mt (covers_range_iff w i).mpr hc)]
      simp only [lookup, find?_cons, hc, decide_false]

theorem length_patch (h : ∀ w ∈ ws, w.1 + w.2.length ≤ f.length) : (patch f ws).length = f.length := by
  induction ws generalizing f with
  | nil => rfl
  | cons w ws ih =>
    have hw := length_pwrite (h w mem_cons_self)
    change (patch (pwrite f w.1 w.2) ws).length = _
    rw [ih (fun v hv => hw.symm ▸ h v (mem_cons_of_mem w hv)), hw]

theorem ext_getD {g : Bytes} (hlen : f.length = g.length) (h : ∀ i < f.length, f.getD i 0 = g.getD i 0) : f = g := by
  apply ext_getElem hlen
  intro i h₁ h₂
  rw [← getD_eq_getElem f 0 h₁, ← getD_eq_getElem g 0 h₂]
  exact h i h₁

theorem getD_slice {off n i : Nat} (h : i < n) : (f.slice off n).getD i 0 = f.getD (off + i) 0 := by
  simp only [Bytes.slice, getD_eq_getElem?_getD, getElem?_take_of_lt h, getElem?_drop]

theorem slice_patch {w : Piece} (hone : ∀ i, cover (ws.map Piece.range) i ≤ 1) (hw : w ∈ ws)
    (hin : w.1 + w.2.length ≤ (patch f ws).length) : (patch f ws).slice w.1 w.2.length = w.2 := by
  apply ext_getD
  · rw [Bytes.slice, length_take, length_drop]
    omega
  · intro i hi
    have hlt : i < w.2.length := by
      rw [Bytes.slice, length_take] at hi
      omega
    have hc : Covers w.range (w.1 + i) := (covers_range_iff w _).mpr ⟨by omega, by omega⟩
    rw [getD_slice hlt, getD_patch hone, lookup_of_mem (hone _) hw hc, Option.getD_some, Nat.add_sub_cancel_left]

variable {rs : List (Nat × Nat)}

theorem split_ranges (hn : ∀ r ∈ rs, r.1 < r.2)
    (hd : (rs.map fun r => r.2 - r.1).sum = d.length) : (split d rs).map Piece.range = rs := by
  induction rs generalizing d with
  | nil => rfl
  | cons r rs ih =>
    rw [map_cons, sum_cons] at hd
    have hr := hn r mem_cons_self
    have hlen : (d.take (r.2 - r.1)).length = r.2 - r.1 := length_take_of_le (by omega)
    have hrest := ih (d := d.drop (r.2 - r.1)) (fun q hq => hn q (mem_cons_of_mem r hq)) (by
      rw [length_drop]
      omega)
    simp only [split, map_cons, hrest, Piece.range, hlen]
    rw [Nat.add_sub_cancel' hr.le]

theorem split_flatten (hd : (rs.map fun r => r.2 - r.1).sum = d.length) :
    (split d rs).flatMap Prod.snd = d := by
  induction rs generalizing d with
  | nil => exact (length_eq_zero_iff.mp hd.symm).symm
  | cons r rs ih =>
    rw [map_cons, sum_cons] at hd
    simp only [split, flatMap_cons]
    rw [ih (by rw [length_drop]; omega), take_append_drop]

theorem mem_of_mem_split {w : Piece} (hw : w ∈ split d rs) : ∀ b ∈ w.2, b ∈ d := by
  induction rs generalizing d with
  | nil => cases hw
  | cons r rs ih =>
    rcases mem_cons.mp hw with rfl | hw
    · exact fun b hb => mem_of_mem_take hb
    · exact fun b hb => mem_of_mem_drop (ih hw b hb)

theorem gather_range (f : Bytes) (ws : List Piece) :
    gather f (ws.map Piece.range) = ws.flatMap fun w => f.slice w.1 w.2.length := by
  simp only [gather, flatMap_map, Piece.range, Nat.add_sub_cancel_left]

theorem gather_append (h : ∀ r ∈ rs, r.1 < r.2 ∧ r.2 ≤ f.length) (g : Bytes) : gather (f ++ g) rs = gather f rs := by
  refine flatMap_congr fun r hr => ?_
  have hr := h r hr
  rw [Bytes.slice, drop_append_of_le_length (by omega), take_append_of_le_length]
  · rfl
  · rw [length_drop]
    omega

end AeraRecovery.Lib.Storage
