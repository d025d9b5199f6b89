import Mathlib

namespace AeraRecovery.Lib.Lists

open List

theorem filterMap_sublist {α β : Type} {f g : α → Option β} (h : ∀ a b, f a = some b → g a = some b) (l : List α) :
    (l.filterMap f).Sublist (l.filterMap g) := by
  induction l with
  | nil => exact Sublist.refl _
  | cons a l ih =>
    rw [filterMap_cons, filterMap_cons]
    cases hf : f a with
    | none =>
      cases g a with
      | none => exact ih
      | some b => exact ih.cons b
    | some b =>
      rw [h a b hf]
      exact ih.cons_cons b

theorem eq_of_nodup_filterMap {α β : Type} {f : α → Option β} {l : List α} (h : (l.filterMap f).Nodup) {a a' : α}
    (ha : a ∈ l) (ha' : a' ∈ l) {b : β} (hb : f a = some b) (hb' : f a' = some b) : a = a' := by
  induction l with
  | nil => cases ha
  | cons x l ih =>
    have hrest : (l.filterMap f).Nodup := h.sublist ((sublist_cons_self x l).filterMap f)
    have hhead : f x = some b → b ∉ l.filterMap f := by
      intro hx
      rw [filterMap_cons, hx] at h
      exact (nodup_cons.mp h).1
    rcases mem_cons.mp ha with rfl | hl <;> rcases mem_cons.mp ha' with rfl | hl'
    · rfl
    · exact absurd (mem_filterMap.mpr ⟨a', hl', hb'⟩) (hhead hb)
    · exact absurd (mem_filterMap.mpr ⟨a, hl, hb⟩) (hhead hb')
    · exact ih hrest hl hl'

end AeraRecovery.Lib.Lists
