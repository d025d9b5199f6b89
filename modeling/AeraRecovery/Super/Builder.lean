import Mathlib

namespace AeraRecovery.Super

open List Function Nat

structure Partition where
  name : String
  group : String
  size : Nat := 0
  attributes : UInt32
  deriving DecidableEq

structure Group where
  name : String
  maximum : Nat
  deriving DecidableEq

def roundUp (block n : Nat) : Nat := (n + block - 1) / block * block

theorem dvd_roundUp (block n : Nat) : block ∣ roundUp block n := ⟨_, mul_comm _ _⟩

variable {block : Nat}

theorem le_roundUp (hb : 0 < block) (n : Nat) : n ≤ roundUp block n := by
  have hdiv := div_add_mod (n + block - 1) block
  have hmod := mod_lt (n + block - 1) hb
  rw [mul_comm] at hdiv
  rw [roundUp]
  omega

theorem roundUp_le {n m : Nat} (hm : block ∣ m) (h : n ≤ m) : roundUp block n ≤ m := by
  obtain ⟨k, rfl⟩ := hm
  rcases Nat.eq_zero_or_pos block with rfl | hb
  · simp only [roundUp, mul_zero, zero_mul, le_refl]
  · rw [roundUp, mul_comm block k]
    refine mul_le_mul_right block ?_
    rw [← Nat.lt_add_one_iff, Nat.div_lt_iff_lt_mul hb, add_mul, one_mul, mul_comm k block]
    omega

theorem roundUp_of_dvd {n : Nat} (hb : 0 < block) (h : block ∣ n) : roundUp block n = n :=
  le_antisymm (roundUp_le h le_rfl) (le_roundUp hb n)

theorem sector_pos : 0 < 512 := by decide

/-- The metadata builder, by capacities: which partitions and groups there are, and how large. Names are unique,
every partition is in a group that exists, and sizes are whole logical blocks. -/
@[ext]
structure MetadataBuilder where
  partitions : List Partition
  groups : List Group
  blockSize : Nat
  capacity : Nat
  unique : (partitions.map Partition.name).Nodup
  uniqueGroups : (groups.map Group.name).Nodup
  grouped : ∀ p ∈ partitions, p.group ∈ groups.map Group.name
  blockSize_pos : 0 < blockSize
  aligned : ∀ p ∈ partitions, blockSize ∣ p.size

namespace MetadataBuilder

variable (b : MetadataBuilder) (name : String)

def findPartition : Option Partition := b.partitions.find? fun p => p.name = name

def findGroup : Option Group := b.groups.find? fun g => g.name = name

def listGroups : List String := b.groups.map Group.name

variable (group : String)

def listPartitionsInGroup : List Partition := b.partitions.filter fun p => p.group = group

def used : Nat := (b.partitions.map Partition.size).sum

def groupTotal : Nat := (b.partitions.map fun p => if p.group = group then p.size else 0).sum

def groupMaximum : Nat := ((b.findGroup group).map Group.maximum).getD 0

/-- Change every partition in place, keeping its name and what the builder requires of the rest. -/
def update (f : Partition → Partition) (hname : ∀ p, (f p).name = p.name)
    (hgroup : ∀ p ∈ b.partitions, (f p).group ∈ b.groups.map Group.name)
    (hsize : ∀ p ∈ b.partitions, b.blockSize ∣ (f p).size) : MetadataBuilder where
  partitions := b.partitions.map f
  groups := b.groups
  blockSize := b.blockSize
  capacity := b.capacity
  unique := by simpa only [map_map, comp_def, hname] using b.unique
  uniqueGroups := b.uniqueGroups
  grouped := by simpa only [forall_mem_map] using hgroup
  blockSize_pos := b.blockSize_pos
  aligned := by simpa only [forall_mem_map] using hsize

def resized (n : Nat) (p : Partition) : Partition := if p.name = name then { p with size := n } else p

theorem resized_name (n : Nat) (p : Partition) : (resized name n p).name = p.name := by
  rw [resized]
  split_ifs <;> rfl

def setSize (n : Nat) : MetadataBuilder :=
  b.update (resized name (roundUp b.blockSize n)) (resized_name name _)
    (fun p hp => by
      rw [resized]
      split_ifs <;> exact b.grouped p hp)
    fun p hp => by
      rw [resized]
      split_ifs
      · exact dvd_roundUp _ _
      · exact b.aligned p hp

def Fits (p : Partition) (n : Nat) : Prop :=
  p.size < roundUp b.blockSize n → (b.groupMaximum p.group = 0 ∨
      b.groupTotal p.group + (roundUp b.blockSize n - p.size) ≤ b.groupMaximum p.group) ∧
    b.used + (roundUp b.blockSize n - p.size) ≤ b.capacity

instance (p : Partition) (n : Nat) : Decidable (b.Fits p n) := inferInstanceAs (Decidable (_ → _))

def resizePartition (p : Partition) (n : Nat) : Option MetadataBuilder :=
  if b.Fits p n then some (b.setSize p.name n) else none

def removePartition : MetadataBuilder where
  partitions := b.partitions.filter fun p => p.name ≠ name
  groups := b.groups
  blockSize := b.blockSize
  capacity := b.capacity
  unique := b.unique.sublist (filter_sublist.map _)
  uniqueGroups := b.uniqueGroups
  grouped p hp := b.grouped p (mem_of_mem_filter hp)
  blockSize_pos := b.blockSize_pos
  aligned p hp := b.aligned p (mem_of_mem_filter hp)

variable (name group : String) (attributes : UInt32)

def addPartition : Option MetadataBuilder :=
  if h : name ≠ "" ∧ name ∉ b.partitions.map Partition.name ∧ group ∈ b.groups.map Group.name then
    some { b with
      partitions := b.partitions ++ [⟨name, group, 0, attributes⟩]
      unique := by
        rw [map_append, map_singleton, nodup_append_comm, singleton_append, nodup_cons]
        exact ⟨h.2.1, b.unique⟩
      grouped := by
        intro p hp
        rcases mem_append.mp hp with hp | hp
        · exact b.grouped p hp
        · rw [mem_singleton.mp hp]
          exact h.2.2
      aligned := by
        intro p hp
        rcases mem_append.mp hp with hp | hp
        · exact b.aligned p hp
        · rw [mem_singleton.mp hp]
          exact dvd_zero _ }
  else none

def regrouped (p : Partition) : Partition := if p.name = name then { p with group } else p

/-- Sizes are not checked here. `none` if the group does not exist. -/
def changePartitionGroup : Option MetadataBuilder :=
  if h : group ∈ b.groups.map Group.name then
    some (b.update (regrouped name group)
      (fun p => by
        rw [regrouped]
        split_ifs <;> rfl)
      (fun p hp => by
        rw [regrouped]
        split_ifs
        · exact h
        · exact b.grouped p hp)
      fun p hp => by
        rw [regrouped]
        split_ifs <;> exact b.aligned p hp)
  else none

def reattributed (p : Partition) : Partition :=
  if p.name = name then { p with attributes } else p

def setAttributes : MetadataBuilder :=
  b.update (reattributed name attributes)
    (fun p => by
      rw [reattributed]
      split_ifs <;> rfl)
    (fun p hp => by
      rw [reattributed]
      split_ifs <;> exact b.grouped p hp)
    fun p hp => by
      rw [reattributed]
      split_ifs <;> exact b.aligned p hp

variable (maximum : Nat)

def addGroup : Option MetadataBuilder :=
  if h : name ∉ b.groups.map Group.name then
    some { b with
      groups := b.groups ++ [⟨name, maximum⟩]
      uniqueGroups := by
        rw [map_append, map_singleton, nodup_append_comm, singleton_append, nodup_cons]
        exact ⟨h, b.uniqueGroups⟩
      grouped := by
        intro p hp
        rw [map_append]
        exact mem_append_left _ (b.grouped p hp) }
  else none

def limited (g : Group) : Group := if g.name = name then { g with maximum } else g

theorem map_limited_name (groups : List Group) :
    (groups.map (limited name maximum)).map Group.name = groups.map Group.name := by
  rw [map_map]
  refine map_congr_left fun g _ => ?_
  rw [comp_apply, limited]
  split_ifs <;> rfl

def changeGroupSize : Option MetadataBuilder :=
  if name = "default" ∨ name ∉ b.groups.map Group.name then none
  else some { b with
    groups := b.groups.map (limited name maximum)
    uniqueGroups := by
      rw [map_limited_name]
      exact b.uniqueGroups
    grouped := by
      rw [map_limited_name]
      exact b.grouped }

def removeGroupAndPartitions : MetadataBuilder :=
  if name = "default" then b
  else { b with
    partitions := b.partitions.filter fun p => p.group ≠ name
    groups := b.groups.filter fun g => g.name ≠ name
    unique := b.unique.sublist (filter_sublist.map _)
    uniqueGroups := b.uniqueGroups.sublist (filter_sublist.map _)
    grouped := by
      intro p hp
      obtain ⟨hp, hne⟩ := mem_filter.mp hp
      obtain ⟨g, hg, hgroup⟩ := mem_map.mp (b.grouped p hp)
      rw [← hgroup] at hne ⊢
      exact mem_map_of_mem (mem_filter.mpr ⟨hg, hne⟩)
    aligned := fun p hp => b.aligned p (mem_of_mem_filter hp) }

variable {b}

variable {name : String} {p : Partition}

theorem findPartition_eq_some_iff : b.findPartition name = some p ↔ p ∈ b.partitions ∧ p.name = name := by
  constructor
  · intro h
    exact ⟨mem_of_find?_eq_some h, by simpa using find?_some h⟩
  · rintro ⟨hp, rfl⟩
    cases h : b.findPartition p.name with
    | none =>
      have hnone := find?_eq_none.mp h p hp
      simp at hnone
    | some q =>
      have hq : q ∈ b.partitions := mem_of_find?_eq_some h
      have hname : q.name = p.name := by simpa using find?_some h
      rw [inj_on_of_nodup_map b.unique hq hp hname]

theorem eq_of_name {q : Partition} (hp : p ∈ b.partitions) (hq : q ∈ b.partitions) (h : p.name = q.name) : p = q :=
  inj_on_of_nodup_map b.unique hp hq h

theorem findPartition_eq_none_iff : b.findPartition name = none ↔ name ∉ b.partitions.map Partition.name := by
  simp only [findPartition, find?_eq_none, decide_eq_true_eq, mem_map, not_exists, not_and]

theorem findPartition_setSize_of_ne {other : String} (h : other ≠ name) (n : Nat) :
    (b.setSize name n).findPartition other = b.findPartition other := by
  change (b.partitions.map (resized name _)).find? (fun p => p.name = other) = _
  rw [find?_map]
  simp only [comp_def, resized_name]
  change (b.findPartition other).map (resized name _) = _
  cases hf : b.findPartition other with
  | none => rfl
  | some p =>
    have hname := (findPartition_eq_some_iff.mp hf).2
    rw [Option.map_some, resized, if_neg (by rwa [hname])]

variable {b' : MetadataBuilder}

theorem addPartition_eq_some {group : String} {attributes : UInt32}
    (h : b.addPartition name group attributes = some b') :
    b'.partitions = b.partitions ++ [⟨name, group, 0, attributes⟩] ∧ b'.groups = b.groups := by
  rw [addPartition] at h
  split_ifs at h
  obtain rfl := Option.some.inj h
  exact ⟨rfl, rfl⟩

theorem changePartitionGroup_eq_some {group : String} (h : b.changePartitionGroup name group = some b') :
    b'.partitions = b.partitions.map (regrouped name group) ∧ b'.groups = b.groups := by
  rw [changePartitionGroup] at h
  split_ifs at h
  obtain rfl := Option.some.inj h
  exact ⟨rfl, rfl⟩

theorem setAttributes_partitions (attributes : UInt32) :
    (b.setAttributes name attributes).partitions = b.partitions.map (reattributed name attributes) :=
  rfl

theorem addGroup_eq_some {maximum : Nat} (h : b.addGroup name maximum = some b') :
    b'.partitions = b.partitions ∧ b'.groups = b.groups ++ [⟨name, maximum⟩] := by
  rw [addGroup] at h
  split_ifs at h
  obtain rfl := Option.some.inj h
  exact ⟨rfl, rfl⟩

theorem changeGroupSize_eq_some {maximum : Nat} (h : b.changeGroupSize name maximum = some b') :
    b'.partitions = b.partitions ∧ b'.groups = b.groups.map (limited name maximum) ∧
      name ∈ b.groups.map Group.name := by
  rw [changeGroupSize, Option.ite_none_left_eq_some, not_or, not_not] at h
  obtain ⟨⟨-, hfound⟩, h⟩ := h
  obtain rfl := Option.some.inj h
  exact ⟨rfl, rfl, hfound⟩

theorem foldl_removePartition (names : List String) (b : MetadataBuilder) :
    (names.foldl removePartition b).partitions = b.partitions.filter (fun p => p.name ∉ names) ∧
      (names.foldl removePartition b).groups = b.groups ∧
      (names.foldl removePartition b).blockSize = b.blockSize := by
  induction names generalizing b with
  | nil =>
    refine ⟨?_, rfl, rfl⟩
    simp only [foldl_nil, not_mem_nil, not_false_eq_true, decide_true, filter_true]
  | cons name names ih =>
    obtain ⟨hparts, hgroups, hblock⟩ := ih (b.removePartition name)
    refine ⟨?_, hgroups, hblock⟩
    rw [foldl_cons, hparts, removePartition, filter_filter]
    simp only [mem_cons, not_or, Bool.decide_and, Bool.and_comm]

theorem sum_resized (w : Partition → Nat) {l : List Partition} (hl : (l.map Partition.name).Nodup)
    (hp : p ∈ l) (n : Nat) :
    ((l.map (resized p.name n)).map w).sum + w p = (l.map w).sum + w { p with size := n } := by
  induction l with
  | nil => cases hp
  | cons q l ih =>
    rw [map_cons, nodup_cons] at hl
    simp only [map_cons, sum_cons]
    rcases mem_cons.mp hp with rfl | hp
    · have hrest : l.map (resized p.name n) = l := by
        conv_rhs => rw [← map_id l]
        refine map_congr_left fun r hr => ?_
        rw [resized, if_neg fun hname : r.name = p.name => hl.1 (hname ▸ mem_map_of_mem hr)]
        rfl
      rw [hrest, resized, if_pos rfl]
      omega
    · have hne : q.name ≠ p.name := fun hname => hl.1 (hname ▸ mem_map_of_mem hp)
      rw [resized, if_neg hne]
      have := ih hl.2 hp
      omega

section

variable (hp : p ∈ b.partitions) {n : Nat} (hn : p.size ≤ roundUp b.blockSize n)

include hp hn

theorem used_setSize : (b.setSize p.name n).used = b.used + (roundUp b.blockSize n - p.size) := by
  have h := sum_resized Partition.size b.unique hp (roundUp b.blockSize n)
  simp only [used, setSize, update] at h ⊢
  omega

theorem groupTotal_setSize (group : String) : (b.setSize p.name n).groupTotal group =
      b.groupTotal group + if p.group = group then roundUp b.blockSize n - p.size else 0 := by
  have h := sum_resized (fun p => if p.group = group then p.size else 0) b.unique hp (roundUp b.blockSize n)
  simp only [groupTotal, setSize, update] at h ⊢
  split_ifs at h ⊢ <;> omega

end

theorem setSize_setSize {other : String} (h : name ≠ other) (m n : Nat) :
    (b.setSize name m).setSize other n = (b.setSize other n).setSize name m := by
  apply MetadataBuilder.ext
  · simp only [setSize, update, map_map]
    refine map_congr_left fun p _ => ?_
    simp only [comp_apply, resized]
    split_ifs with h₁ h₂ h₂
    all_goals first
      | rfl
      | exact absurd (h₁.symm.trans h₂) h
  all_goals rfl

/-- Two partitions that both grow, or both do not, may be resized in either order. -/
theorem resizePartition_swap {q : Partition} (hp : p ∈ b.partitions) (hq : q ∈ b.partitions) (hne : p.name ≠ q.name)
    {m n : Nat} (hboth : roundUp b.blockSize m ≤ p.size ∧ roundUp b.blockSize n ≤ q.size ∨
      p.size < roundUp b.blockSize m ∧ q.size < roundUp b.blockSize n) :
    (b.resizePartition p m).bind (fun b' => b'.resizePartition q n) =
      (b.resizePartition q n).bind fun b' => b'.resizePartition p m := by
  have hblock : ∀ name k, (b.setSize name k).blockSize = b.blockSize := fun _ _ => rfl
  have hcap : ∀ name k, (b.setSize name k).capacity = b.capacity := fun _ _ => rfl
  have hmax : ∀ name k g, (b.setSize name k).groupMaximum g = b.groupMaximum g := fun _ _ _ => rfl
  have hfits : b.Fits p m ∧ (b.setSize p.name m).Fits q n ↔ b.Fits q n ∧ (b.setSize q.name n).Fits p m := by
    rcases hboth with ⟨hm, hn⟩ | ⟨hm, hn⟩
    · simp only [Fits, hblock, hm.not_gt, hn.not_gt, false_implies, and_self]
    · simp only [Fits, hblock, hcap, hmax, hm, hn, forall_const, used_setSize hp hm.le, used_setSize hq hn.le,
        groupTotal_setSize hp hm.le, groupTotal_setSize hq hn.le]
      rcases eq_or_ne p.group q.group with hg | hg
      · simp only [hg, if_true]
        omega
      · simp only [hg, hg.symm, if_false]
        omega
  simp only [resizePartition]
  by_cases h₁ : b.Fits p m <;> by_cases h₂ : b.Fits q n
  · by_cases h₃ : (b.setSize p.name m).Fits q n
    · have h₄ := (hfits.mp ⟨h₁, h₃⟩).2
      simp only [h₁, h₂, h₃, h₄, if_true, Option.bind_some, setSize_setSize hne]
    · have h₄ : ¬ (b.setSize q.name n).Fits p m := fun h => h₃ (hfits.mpr ⟨h₂, h⟩).2
      simp only [h₁, h₂, h₃, h₄, if_true, if_false, Option.bind_some]
  · have h₃ : ¬ (b.setSize p.name m).Fits q n := fun h => h₂ (hfits.mp ⟨h₁, h⟩).1
    simp only [h₁, h₂, h₃, if_true, if_false, Option.bind_some, Option.bind_none]
  · have h₄ : ¬ (b.setSize q.name n).Fits p m := fun h => h₁ (hfits.mpr ⟨h₂, h⟩).1
    simp only [h₁, h₂, h₄, if_true, if_false, Option.bind_some, Option.bind_none]
  · simp only [h₁, h₂, if_false, Option.bind_none]

end MetadataBuilder

end AeraRecovery.Super
