import Mathlib

namespace AeraRecovery.Lib.Tiling

open List

variable {α : Type} [LinearOrder α]

/-- The half-open range from `r.1` up to `r.2` contains `i`. -/
def Covers (r : α × α) (i : α) : Prop := r.1 ≤ i ∧ i < r.2

instance (r : α × α) (i : α) : Decidable (Covers r i) := inferInstanceAs (Decidable (_ ∧ _))

/-- How many ranges of the list contain `i`. -/
def cover (l : List (α × α)) (i : α) : Nat := l.countP fun r => Covers r i

/-- Every range is nonempty and every point from `lo` up to `hi` lies in exactly one of them, every other
point in none. The order of the list plays no role. -/
structure Tiles (lo hi : α) (l : List (α × α)) : Prop where
  nonempty : ∀ r ∈ l, r.1 < r.2
  once : ∀ i, cover l i = if lo ≤ i ∧ i < hi then 1 else 0

def Chain : α → List (α × α) → α → Prop
  | lo, [], hi => lo = hi
  | lo, r :: l, hi => r.1 = lo ∧ Chain r.2 l hi

def Before (a b : α × α) : Prop := a.1 < b.1 ∨ a.1 = b.1 ∧ a.2 ≤ b.2

instance (a b : α × α) : Decidable (Before a b) := inferInstanceAs (Decidable (_ ∨ _))

instance : Std.Total (@Before α _) where
  total a b := by
    rcases lt_trichotomy a.1 b.1 with h | h | h
    · exact .inl (.inl h)
    · rcases le_total a.2 b.2 with h' | h'
      · exact .inl (.inr ⟨h, h'⟩)
      · exact .inr (.inr ⟨h.symm, h'⟩)
    · exact .inr (.inl h)

instance : IsTrans (α × α) Before where
  trans a b c := by
    rintro (h | ⟨h, h'⟩) (k | ⟨k, k'⟩)
    · exact .inl (h.trans k)
    · exact .inl (k ▸ h)
    · exact .inl (h ▸ k)
    · exact .inr ⟨h.trans k, h'.trans k'⟩

theorem Before.fst_le {a b : α × α} (h : Before a b) : a.1 ≤ b.1 := by
  rcases h with h | ⟨h, -⟩
  · exact h.le
  · exact h.le

theorem cover_cons (r : α × α) (l : List (α × α)) (i : α) :
    cover (r :: l) i = cover l i + if Covers r i then 1 else 0 := by
  rw [cover, countP_cons]
  simp only [decide_eq_true_eq]
  rfl

theorem cover_perm {l l' : List (α × α)} (h : l.Perm l') (i : α) : cover l i = cover l' i :=
  h.countP_eq _

variable {l : List (α × α)}

theorem cover_pos {i : α} (h : 0 < cover l i) : ∃ r ∈ l, Covers r i := by
  obtain ⟨r, hr, hc⟩ := countP_pos_iff.mp h
  exact ⟨r, hr, of_decide_eq_true hc⟩

variable {lo hi : α}

theorem Tiles.perm {l l' : List (α × α)} (h : Tiles lo hi l) (hp : l.Perm l') : Tiles lo hi l' where
  nonempty r hr := h.nonempty r (hp.mem_iff.mpr hr)
  once i := (cover_perm hp i).symm.trans (h.once i)

theorem Chain.le (hn : ∀ r ∈ l, r.1 < r.2) (h : Chain lo l hi) : lo ≤ hi := by
  induction l generalizing lo with
  | nil => exact le_of_eq h
  | cons r l ih =>
    obtain ⟨rfl, h⟩ := h
    have hr := hn r mem_cons_self
    exact hr.le.trans (ih (fun q hq => hn q (mem_cons_of_mem r hq)) h)

theorem Chain.tiles (hn : ∀ r ∈ l, r.1 < r.2) (h : Chain lo l hi) : Tiles lo hi l := by
  refine ⟨hn, fun i => ?_⟩
  induction l generalizing lo with
  | nil =>
    obtain rfl : lo = hi := h
    have hempty : ¬ (lo ≤ i ∧ i < lo) := fun hi => absurd hi.1 (not_le.mpr hi.2)
    rw [if_neg hempty]
    rfl
  | cons r l ih =>
    obtain ⟨rfl, h⟩ := h
    have hr := hn r mem_cons_self
    have hn' : ∀ q ∈ l, q.1 < q.2 := fun q hq => hn q (mem_cons_of_mem r hq)
    have hle := h.le hn'
    rw [cover_cons, ih hn' h]
    -- `i` lies before the first range, in it, or behind it
    rcases lt_or_ge i r.1 with h₁ | h₁
    · simp [Covers, h₁.not_ge, (h₁.trans hr).not_ge]
    · rcases lt_or_ge i r.2 with h₂ | h₂
      · simp [Covers, h₁, h₂, h₂.not_ge, h₂.trans_le hle]
      · simp [Covers, h₁, h₂, h₂.not_gt]

theorem Tiles.chain (hle : lo ≤ hi) (hs : l.Pairwise Before) (h : Tiles lo hi l) : Chain lo l hi := by
  induction l generalizing lo with
  | nil =>
    rcases hle.eq_or_lt with heq | hlt
    · exact heq
    · have := h.once lo
      simp [cover, hlt] at this
  | cons r l ih =>
    obtain ⟨hfirst, hs⟩ := pairwise_cons.mp hs
    have hr := h.nonempty r mem_cons_self
    have hcount : ∀ i, cover l i + (if Covers r i then 1 else 0) = if lo ≤ i ∧ i < hi then 1 else 0 :=
      fun i => (cover_cons r l i).symm.trans (h.once i)
    have hin : ∀ i, r.1 ≤ i → i < r.2 → lo ≤ i ∧ i < hi := by
      intro i h₁ h₂
      by_contra hout
      have := hcount i
      simp [Covers, h₁, h₂, hout] at this
    have hlo := hin r.1 le_rfl hr
    have hstart : r.1 = lo := by
      refine le_antisymm ?_ hlo.1
      obtain ⟨q, hq, hc⟩ : ∃ q ∈ r :: l, Covers q lo := cover_pos (by
        rw [h.once, if_pos ⟨le_rfl, hlo.1.trans_lt hlo.2⟩]
        exact Nat.one_pos)
      rcases mem_cons.mp hq with rfl | hq
      · exact hc.1
      · exact (hfirst q hq).fst_le.trans hc.1
    have hstop : r.2 ≤ hi := by
      by_contra hbeyond
      exact absurd (hin hi (hstart.le.trans hle) (not_le.mp hbeyond)).2 (lt_irrefl hi)
    refine ⟨hstart, ih hstop hs ⟨fun q hq => h.nonempty q (mem_cons_of_mem r hq), fun i => ?_⟩⟩
    have hi := hcount i
    simp only [Covers, hstart] at hi hr
    rcases lt_or_ge i r.2 with h₂ | h₂
    · rw [if_neg (fun hc => absurd hc.1 (not_le.mpr h₂))]
      rcases lt_or_ge i lo with h₁ | h₁
      · simpa [h₁.not_ge] using hi
      · simpa [h₁, h₂, h₂.trans_le hstop] using hi
    · simpa [h₂, h₂.not_gt, hr.le.trans h₂] using hi

theorem chain_sort_iff (hle : lo ≤ hi) (hn : ∀ r ∈ l, r.1 < r.2) :
    Chain lo (l.insertionSort Before) hi ↔ Tiles lo hi l := by
  have hperm := perm_insertionSort Before l
  constructor
  · intro h
    exact (h.tiles fun r hr => hn r (hperm.mem_iff.mp hr)).perm hperm
  · intro h
    exact (h.perm hperm.symm).chain hle (pairwise_insertionSort Before l)

theorem Chain.length {lo hi : Nat} {l : List (Nat × Nat)} (hn : ∀ r ∈ l, r.1 < r.2) (h : Chain lo l hi) :
    lo + (l.map fun r => r.2 - r.1).sum = hi := by
  induction l generalizing lo with
  | nil => exact h
  | cons r l ih =>
    obtain ⟨rfl, h⟩ := h
    have hr := hn r mem_cons_self
    have hrest := ih (fun q hq => hn q (mem_cons_of_mem r hq)) h
    rw [map_cons, sum_cons]
    omega

theorem Tiles.length {lo hi : Nat} {l : List (Nat × Nat)} (hle : lo ≤ hi) (h : Tiles lo hi l) :
    lo + (l.map fun r => r.2 - r.1).sum = hi := by
  have hperm := perm_insertionSort Before l
  have hchain := (chain_sort_iff hle h.nonempty).mpr h
  rw [← hchain.length fun r hr => h.nonempty r (hperm.mem_iff.mp hr)]
  exact congrArg (lo + ·) (hperm.map _).sum_eq.symm

end AeraRecovery.Lib.Tiling
