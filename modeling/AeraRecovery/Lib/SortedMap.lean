import Mathlib

namespace AeraRecovery.Lib

open List

structure SortedMap (κ ν : Type) [LT κ] where
  entries : List (κ × ν)
  sorted : entries.Pairwise fun a b => a.1 < b.1

namespace SortedMap

variable {κ ν : Type} [LT κ]

theorem ext {m m' : SortedMap κ ν} (h : m.entries = m'.entries) : m = m' := by
  exact (SortedMap.mk.injEq _ _ _ _).mpr h

def empty : SortedMap κ ν := ⟨[], Pairwise.nil⟩

def filter (m : SortedMap κ ν) (keep : κ × ν → Bool) : SortedMap κ ν :=
  ⟨m.entries.filter keep, m.sorted.filter keep⟩

variable [DecidableEq κ]

def find (m : SortedMap κ ν) (key : κ) : Option ν := (m.entries.find? fun e => e.1 = key).map Prod.snd

theorem find_of_mem [Std.Irrefl (α := κ) (· < ·)] (m : SortedMap κ ν) {e : κ × ν} (h : e ∈ m.entries) : m.find e.1 = some e.2 := by
  obtain ⟨l, hl⟩ := m
  induction l with
  | nil => cases h
  | cons d l ih =>
    obtain ⟨hd, hl⟩ := pairwise_cons.mp hl
    rcases mem_cons.mp h with rfl | h
    · simp [find]
    · have hne : d.1 ≠ e.1 := fun heq => Std.Irrefl.irrefl e.1 (heq ▸ hd e h)
      have hrest := ih hl h
      rwa [find, find?_cons_of_neg (by simpa using hne)]

variable [DecidableLT κ]

def insertEntry (key : κ) (value : ν) : List (κ × ν) → List (κ × ν)
  | [] => [(key, value)]
  | e :: rest =>
    if key < e.1 then (key, value) :: e :: rest
    else if key = e.1 then (key, value) :: rest
    else e :: insertEntry key value rest

variable {key : κ} {value : ν} {l : List (κ × ν)} {e : κ × ν}

theorem mem_insertEntry (h : e ∈ insertEntry key value l) : e = (key, value) ∨ e ∈ l := by
  induction l with
  | nil => exact .inl (mem_singleton.mp h)
  | cons d l ih =>
    rw [insertEntry] at h
    split_ifs at h
    · rcases mem_cons.mp h with h | h
      · exact .inl h
      · exact .inr h
    · rcases mem_cons.mp h with h | h
      · exact .inl h
      · exact .inr (mem_cons_of_mem d h)
    · rcases mem_cons.mp h with rfl | h
      · exact .inr mem_cons_self
      · exact (ih h).imp_right (mem_cons_of_mem d)

theorem length_insertEntry_le : (insertEntry key value l).length ≤ l.length + 1 := by
  induction l with
  | nil => exact le_rfl
  | cons d l ih =>
    rw [insertEntry]
    split_ifs
    · exact le_rfl
    · exact Nat.le_succ _
    · exact Nat.succ_le_succ ih

variable [Trans (· < · : κ → κ → Prop) (· < ·) (· < ·)]

theorem sorted_insertEntry [Std.Trichotomous (α := κ) (· < ·)] (h : l.Pairwise fun a b => a.1 < b.1) :
    (insertEntry key value l).Pairwise fun a b => a.1 < b.1 := by
  induction l with
  | nil => exact pairwise_singleton _ _
  | cons d l ih =>
    obtain ⟨hd, hl⟩ := pairwise_cons.mp h
    rw [insertEntry]
    split_ifs with hlt heq
    · refine pairwise_cons.mpr ⟨fun b hb => ?_, h⟩
      rcases mem_cons.mp hb with rfl | hb
      · exact hlt
      · exact Trans.trans hlt (hd b hb)
    · exact pairwise_cons.mpr ⟨fun b hb => heq ▸ hd b hb, hl⟩
    · refine pairwise_cons.mpr ⟨fun b hb => ?_, ih hl⟩
      rcases mem_insertEntry hb with rfl | hb
      · exact not_not.mp fun hge => heq (Std.Trichotomous.trichotomous key d.1 hlt hge)
      · exact hd b hb

theorem insertEntry_of_forall_lt [Std.Irrefl (α := κ) (· < ·)] (h : ∀ d ∈ l, d.1 < key) :
    insertEntry key value l = l ++ [(key, value)] := by
  induction l with
  | nil => rfl
  | cons d l ih =>
    obtain ⟨hd, hl⟩ := forall_mem_cons.mp h
    have hnot : ¬ key < d.1 := fun hlt => Std.Irrefl.irrefl key (Trans.trans hlt hd)
    have hne : key ≠ d.1 := by
      intro heq
      rw [← heq] at hd
      exact Std.Irrefl.irrefl key hd
    rw [insertEntry, if_neg hnot, if_neg hne, ih hl, cons_append]

def insert [Std.Trichotomous (α := κ) (· < ·)] (m : SortedMap κ ν) (key : κ) (value : ν) : SortedMap κ ν :=
  ⟨insertEntry key value m.entries, sorted_insertEntry m.sorted⟩

end SortedMap

end AeraRecovery.Lib
