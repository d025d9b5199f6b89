import AeraRecovery.Super.FlashLayout

namespace AeraRecovery.Super.RomLayout

open Lib.Checks Lib.Steps MetadataBuilder FlashLayout List

structure RomImageGroup where
  name : String
  maximumBytes : Nat

structure RomImagePartition where
  name : String
  group : String
  attributes : UInt32

structure RomImageLayout where
  groups : List RomImageGroup
  partitions : List RomImagePartition

variable (suffix : String)

def RomImageGroup.target (group : RomImageGroup) : String := group.name ++ suffix

def RomImagePartition.target (part : RomImagePartition) : String := part.name ++ suffix

/-- The test the planner makes on names: longer than the suffix, and ending in it. -/
def InSlot (suffix name : String) : Prop := suffix.length < name.length ∧ suffix.toList <:+ name.toList

instance (suffix name : String) : Decidable (InSlot suffix name) := inferInstanceAs (Decidable (_ ∧ _))

def checkGroup : List String → RomImageGroup → Except String (List String) :=
  insertNew (RomImageGroup.target suffix) (fun group => group.name ≠ "" ∧ group.maximumBytes ≠ 0)
    fun _ => "Invalid ROM partition group"

def checkPart (selected groups : List String) :
    List String → RomImagePartition → Except String (List String) :=
  insertNew (RomImagePartition.target suffix)
    (fun part => part.name ≠ "" ∧ part.target suffix ∈ selected ∧ part.group ++ suffix ∈ groups)
    fun _ => "Select every ROM logical image before applying its partition layout"

variable (b : MetadataBuilder)

def obsolete (suffix : String) (desired : List String) : List String :=
  b.listGroups.flatMap fun group =>
    ((b.listPartitionsInGroup group).map Partition.name).filter fun name => InSlot suffix name ∧ name ∉ desired

def prepareGroup (group : RomImageGroup) : Except String MetadataBuilder :=
  match b.findGroup (group.target suffix) with
  | none => require (b.addGroup (group.target suffix) group.maximumBytes) "Cannot create ROM partition group"
  | some _ => require (b.changeGroupSize (group.target suffix) group.maximumBytes) "Cannot set ROM group limit"

def entry (part : RomImagePartition) : Option MetadataBuilder :=
  match b.findPartition (part.target suffix) with
  | none => b.addPartition (part.target suffix) (part.group ++ suffix) part.attributes
  | some _ => some b

def preparePart (part : RomImagePartition) :
    Except String MetadataBuilder := do
  let moved ← require
    ((entry suffix b part).bind fun b => b.changePartitionGroup (part.target suffix) (part.group ++ suffix))
    "Cannot prepare ROM logical target"
  pure (moved.setAttributes (part.target suffix) part.attributes)

def dropGroup (groups : List String) (b : MetadataBuilder) (group : String) : MetadataBuilder :=
  if InSlot suffix group ∧ group ∉ groups ∧ b.listPartitionsInGroup group = [] then b.removeGroupAndPartitions group
  else b

def planRomImageLayout (layout : RomImageLayout) (suffix : String)
    (images : List LogicalImageSize) : Except String MetadataBuilder := do
  ensure ((suffix = "_a" ∨ suffix = "_b") ∧ layout.partitions ≠ []) "ROM layout requires a known A/B slot"
  let selected := images.map LogicalImageSize.name
  let groups ← layout.groups.foldlM (checkGroup suffix) []
  let desired ← layout.partitions.foldlM (checkPart suffix selected groups) []
  ensure (selected ⊆ desired ∧ desired ⊆ selected) "Selected logical images differ from the ROM layout"
  let b := (obsolete b suffix desired).foldl removePartition b
  let b ← layout.groups.foldlM (prepareGroup suffix) b
  let b ← layout.partitions.foldlM (preparePart suffix) b
  pure (b.listGroups.foldl (dropGroup suffix groups) b)

theorem inSlot_iff {suffix name : String} : InSlot suffix name ↔ ∃ base, base ≠ "" ∧ name = base ++ suffix := by
  constructor
  · rintro ⟨hlength, base, hbase⟩
    have hname : name = String.ofList base ++ suffix := by
      rw [← String.toList_inj, String.toList_append, String.toList_ofList, hbase]
    refine ⟨String.ofList base, ?_, hname⟩
    intro hempty
    rw [hempty, String.empty_append] at hname
    exact absurd hlength (hname ▸ lt_irrefl _)
  · rintro ⟨base, hbase, rfl⟩
    constructor
    · have hpos : base.length ≠ 0 := fun hzero => hbase (String.length_eq_zero_iff.mp hzero)
      rw [String.length_append]
      omega
    · rw [String.toList_append]
      exact suffix_append _ _

section

variable {suffix : String} {b b' : MetadataBuilder} {desired : List String}

theorem mem_obsolete {name : String} : name ∈ obsolete b suffix desired ↔
      name ∈ b.partitions.map Partition.name ∧ InSlot suffix name ∧ name ∉ desired := by
  simp only [obsolete, mem_flatMap, mem_filter, mem_map, decide_eq_true_eq, listPartitionsInGroup, listGroups]
  constructor
  · rintro ⟨_, _, ⟨p, ⟨hp, _⟩, rfl⟩, hname⟩
    exact ⟨⟨p, hp, rfl⟩, hname⟩
  · rintro ⟨⟨p, hp, rfl⟩, hname⟩
    exact ⟨p.group, mem_map.mp (b.grouped p hp), ⟨p, ⟨hp, rfl⟩, rfl⟩, hname⟩

section

variable {group : RomImageGroup} (h : prepareGroup suffix b group = .ok b')

include h

theorem prepareGroup_cases : b.addGroup (group.target suffix) group.maximumBytes = some b' ∨
      b.changeGroupSize (group.target suffix) group.maximumBytes = some b' := by
  rw [prepareGroup] at h
  cases hfind : b.findGroup (group.target suffix) with
  | none =>
    rw [hfind] at h
    exact .inl (require_ok_iff.mp h)
  | some g =>
    rw [hfind] at h
    exact .inr (require_ok_iff.mp h)

theorem prepareGroup_spec :
    b'.partitions = b.partitions ∧ (⟨group.target suffix, group.maximumBytes⟩ : Group) ∈ b'.groups ∧
      ∀ g : Group, g.name ≠ group.target suffix → g ∈ b.groups → g ∈ b'.groups := by
  rcases prepareGroup_cases h with h | h
  · obtain ⟨hparts, hgroups⟩ := addGroup_eq_some h
    rw [hgroups]
    exact ⟨hparts, mem_append_right _ (mem_singleton_self _), fun g _ hg => mem_append_left _ hg⟩
  · obtain ⟨hparts, hgroups, hfound⟩ := changeGroupSize_eq_some h
    obtain ⟨old, hold, hname⟩ := mem_map.mp hfound
    rw [hgroups]
    refine ⟨hparts, mem_map.mpr ⟨old, hold, ?_⟩, fun g hne hg => mem_map.mpr ⟨g, hg, ?_⟩⟩
    · rw [limited, if_pos hname, hname]
    · rw [limited, if_neg hne]

end

variable {part : RomImagePartition}

theorem entry_spec {made : MetadataBuilder} (h : entry suffix b part = some made) :
    (∀ p : Partition, p.name ≠ part.target suffix → (p ∈ made.partitions ↔ p ∈ b.partitions)) ∧
      ∃ p ∈ made.partitions, p.name = part.target suffix ∧
        ∀ q ∈ b.partitions, q.name = part.target suffix → p.size = q.size := by
  rw [entry] at h
  cases hfind : b.findPartition (part.target suffix) with
  | none =>
    rw [hfind] at h
    obtain ⟨hparts, -⟩ := addPartition_eq_some h
    rw [hparts]
    constructor
    · intro p hne
      rw [mem_append, mem_singleton]
      exact or_iff_left fun heq => hne (heq ▸ rfl)
    · refine ⟨_, mem_append_right _ (mem_singleton_self _), rfl, fun q hq hname => ?_⟩
      exact absurd (hname ▸ mem_map_of_mem hq) (findPartition_eq_none_iff.mp hfind)
  | some p =>
    rw [hfind] at h
    obtain rfl := Option.some.inj h
    obtain ⟨hp, hname⟩ := findPartition_eq_some_iff.mp hfind
    refine ⟨fun _ _ => Iff.rfl, p, hp, hname, fun q hq hq' => ?_⟩
    rw [eq_of_name hp hq (hname.trans hq'.symm)]

def settle (suffix : String) (part : RomImagePartition) (p : Partition) : Partition :=
  if p.name = part.target suffix then { p with group := part.group ++ suffix, attributes := part.attributes } else p

theorem preparePart_eq (h : preparePart suffix b part = .ok b') :
    ∃ made, entry suffix b part = some made ∧ b'.partitions = made.partitions.map (settle suffix part) ∧
      b'.groups = made.groups := by
  rw [preparePart, bind_ok_iff] at h
  obtain ⟨moved, hmoved, h⟩ := h
  obtain ⟨made, hmade, hmove⟩ := Option.bind_eq_some_iff.mp (require_ok_iff.mp hmoved)
  obtain ⟨hparts, hgroups⟩ := changePartitionGroup_eq_some hmove
  obtain rfl := pure_ok_iff.mp h
  refine ⟨made, hmade, ?_, hgroups⟩
  rw [setAttributes_partitions, hparts, map_map]
  refine map_congr_left fun p _ => ?_
  rw [Function.comp_apply, regrouped, settle]
  split_ifs with hname
  · exact if_pos hname
  · exact if_neg hname

theorem preparePart_frame (h : preparePart suffix b part = .ok b') {p : Partition}
    (hne : p.name ≠ part.target suffix) : p ∈ b'.partitions ↔ p ∈ b.partitions := by
  obtain ⟨made, hmade, hparts, -⟩ := preparePart_eq h
  rw [hparts, ← (entry_spec hmade).1 p hne, mem_map]
  constructor
  · rintro ⟨q, hq, rfl⟩
    rw [settle] at hne ⊢
    split_ifs at hne ⊢ with hname
    · exact absurd hname hne
    · exact hq
  · intro hp
    exact ⟨p, hp, if_neg hne⟩

def Settled (suffix : String) (part : RomImagePartition) (p : Partition) : Prop :=
  p.name = part.target suffix ∧ p.group = part.group ++ suffix ∧ p.attributes = part.attributes

theorem preparePart_settles (h : preparePart suffix b part = .ok b') : ∃ p ∈ b'.partitions, Settled suffix part p ∧
      ∀ q ∈ b.partitions, q.name = part.target suffix → p.size = q.size := by
  obtain ⟨made, hmade, hparts, -⟩ := preparePart_eq h
  obtain ⟨p, hp, hname, hsizes⟩ := (entry_spec hmade).2
  refine ⟨settle suffix part p, hparts ▸ mem_map_of_mem hp, ?_⟩
  rw [settle, if_pos hname]
  exact ⟨⟨hname, rfl, rfl⟩, hsizes⟩

theorem preparePart_groups (h : preparePart suffix b part = .ok b') : b'.groups = b.groups := by
  obtain ⟨made, hmade, -, hgroups⟩ := preparePart_eq h
  rw [hgroups]
  rw [entry] at hmade
  cases hfind : b.findPartition (part.target suffix) with
  | none =>
    rw [hfind] at hmade
    exact (addPartition_eq_some hmade).2
  | some p =>
    rw [hfind] at hmade
    exact (Option.some.inj hmade) ▸ rfl

structure Prepared (suffix : String) (desired : List String) (start b : MetadataBuilder) : Prop where
  only : ∀ p ∈ b.partitions, InSlot suffix p.name → p.name ∈ desired
  sizes : ∀ q ∈ start.partitions, q.name ∈ desired → ∃ p ∈ b.partitions, p.name = q.name ∧ p.size = q.size
  frame : ∀ p : Partition, ¬ InSlot suffix p.name → (p ∈ b.partitions ↔ p ∈ start.partitions)

theorem Prepared.of_partitions {start : MetadataBuilder}
    (hb : Prepared suffix desired start b) (h : b'.partitions = b.partitions) : Prepared suffix desired start b' := by
  obtain ⟨honly, hsizes, hframe⟩ := hb
  rw [← h] at honly hsizes hframe
  exact ⟨honly, hsizes, hframe⟩

theorem prepared_cleanup (b : MetadataBuilder) (suffix : String) (desired : List String) :
    Prepared suffix desired b ((obsolete b suffix desired).foldl removePartition b) := by
  have hmem : ∀ p, p ∈ ((obsolete b suffix desired).foldl removePartition b).partitions ↔
      p ∈ b.partitions ∧ (InSlot suffix p.name → p.name ∈ desired) := by
    intro p
    rw [(foldl_removePartition _ b).1, mem_filter, decide_eq_true_eq, mem_obsolete]
    constructor
    · rintro ⟨hp, hkept⟩
      exact ⟨hp, fun hslot => by_contra fun hnot => hkept ⟨mem_map_of_mem hp, hslot, hnot⟩⟩
    · rintro ⟨hp, hslot⟩
      exact ⟨hp, fun hobsolete => hobsolete.2.2 (hslot hobsolete.2.1)⟩
  constructor
  · intro p hp
    exact ((hmem p).mp hp).2
  · intro q hq hname
    exact ⟨q, (hmem q).mpr ⟨hq, fun _ => hname⟩, rfl, rfl⟩
  · intro p hslot
    rw [hmem]
    exact and_iff_left fun h => absurd h hslot

theorem Prepared.step {start : MetadataBuilder}
    (hpart : part.target suffix ∈ desired) (hslot : InSlot suffix (part.target suffix))
    (hb : Prepared suffix desired start b) (h : preparePart suffix b part = .ok b') :
    Prepared suffix desired start b' := by
  constructor
  · intro p hp hin
    by_cases hname : p.name = part.target suffix
    · exact hname ▸ hpart
    · exact hb.only p ((preparePart_frame h hname).mp hp) hin
  · intro q hq hdesired
    obtain ⟨p, hp, hname, hsize⟩ := hb.sizes q hq hdesired
    by_cases htarget : p.name = part.target suffix
    · obtain ⟨p', hp', hsettled, hsizes⟩ := preparePart_settles h
      exact ⟨p', hp', hsettled.1.trans (htarget.symm.trans hname), (hsizes p hp htarget).trans hsize⟩
    · exact ⟨p, (preparePart_frame h htarget).mpr hp, hname, hsize⟩
  · intro p hout
    have hname : p.name ≠ part.target suffix := fun heq => hout (heq ▸ hslot)
    rw [preparePart_frame h hname]
    exact hb.frame p hout

theorem dropGroup_partitions (groups : List String) (group : String) :
    (dropGroup suffix groups b group).partitions = b.partitions := by
  rw [dropGroup]
  split_ifs with h
  · obtain ⟨-, -, hempty⟩ := h
    rw [removeGroupAndPartitions]
    split_ifs
    · rfl
    · refine filter_eq_self.mpr fun p hp => ?_
      have hnone := filter_eq_nil_iff.mp hempty p hp
      simpa using hnone
  · rfl

theorem dropGroup_keeps {groups : List String} {group : String} {g : Group} (hkept : g.name ∈ groups)
    (hg : g ∈ b.groups) : g ∈ (dropGroup suffix groups b group).groups := by
  rw [dropGroup]
  split_ifs with h
  · rw [removeGroupAndPartitions]
    split_ifs
    · exact hg
    · refine mem_filter.mpr ⟨hg, decide_eq_true fun heq => h.2.1 (heq ▸ hkept)⟩
  · exact hg

theorem foldl_dropGroup (suffix : String) (groups names : List String) (b : MetadataBuilder) :
    (names.foldl (dropGroup suffix groups) b).partitions = b.partitions ∧
      ∀ g ∈ b.groups, g.name ∈ groups → g ∈ (names.foldl (dropGroup suffix groups) b).groups := by
  induction names generalizing b with
  | nil => exact ⟨rfl, fun _ hg _ => hg⟩
  | cons name names ih =>
    obtain ⟨hparts, hkeeps⟩ := ih (dropGroup suffix groups b name)
    rw [dropGroup_partitions] at hparts
    exact ⟨hparts, fun g hg hkept => hkeeps g (dropGroup_keeps hkept hg) hkept⟩

end

/-- A plan that succeeds leaves, of the names made of a base and the suffix, exactly those of the layout, in their
groups and with their attributes. Groups get their limits, survivors keep their sizes, and a partition of any other
name is left alone. -/
theorem planRomImageLayout_exact (b b' : MetadataBuilder) (layout : RomImageLayout) (suffix : String)
    (images : List LogicalImageSize) (h : planRomImageLayout b layout suffix images = .ok b') : (∀ base, base ≠ "" →
      (base ++ suffix ∈ b'.partitions.map Partition.name ↔ base ∈ layout.partitions.map RomImagePartition.name)) ∧
    (∀ part ∈ layout.partitions, ∃ p ∈ b'.partitions, p.name = part.name ++ suffix ∧
      p.group = part.group ++ suffix ∧ p.attributes = part.attributes ∧
      ∀ q ∈ b.partitions, q.name = p.name → p.size = q.size) ∧
    (∀ group ∈ layout.groups, ∃ g ∈ b'.groups, g.name = group.name ++ suffix ∧ g.maximum = group.maximumBytes) ∧
    ∀ p : Partition, (¬ ∃ base, base ≠ "" ∧ p.name = base ++ suffix) → (p ∈ b'.partitions ↔ p ∈ b.partitions) := by
  simp only [planRomImageLayout, checkGroup, checkPart, bind_ok_iff, ensure_ok_iff, pure_ok_iff,
    foldlM_insertNew_ok_iff] at h
  obtain ⟨-, -, groups, ⟨-, hgroupKeys, rfl⟩, desired, ⟨hvalid, hpartKeys, rfl⟩, -, -, limited, hlimited, prepared,
    hprepared, rfl⟩ := h
  have hslot : ∀ part ∈ layout.partitions, InSlot suffix (part.target suffix) := fun part hpart =>
    inSlot_iff.mpr ⟨part.name, (hvalid part hpart).1, rfl⟩
  obtain ⟨hfinal, hkept⟩ := foldl_dropGroup suffix (layout.groups.map (RomImageGroup.target suffix))
    prepared.listGroups prepared
  have hstart := prepared_cleanup b suffix (layout.partitions.map (RomImagePartition.target suffix))
  have hlimits :=
    foldlM_establishes (P := fun group s => _ ∈ s.groups) (RomImageGroup.target suffix)
      (fun group s s' h => (prepareGroup_spec h).2.1)
      (fun group other s s' hne hother h => (prepareGroup_spec h).2.2 _ hne hother) hgroupKeys hlimited
  have hgroups :=
    foldlM_invariant (I := fun s => s.groups = limited.groups)
      (fun part _ s s' hs h => (preparePart_groups h).trans hs) rfl hprepared
  have hsettled : ∀ part ∈ layout.partitions, ∃ p ∈ prepared.partitions, Settled suffix part p := by
    refine foldlM_establishes (P := fun part s => ∃ p ∈ s.partitions, Settled suffix part p)
      (RomImagePartition.target suffix) ?_ ?_ hpartKeys hprepared
    · intro part s s' h
      obtain ⟨p, hp, hsettled, -⟩ := preparePart_settles h
      exact ⟨p, hp, hsettled⟩
    · rintro part other s s' hne ⟨p, hp, hsettled⟩ h
      exact ⟨p, (preparePart_frame h (hsettled.1 ▸ hne)).mpr hp, hsettled⟩
  have hinv : Prepared suffix (layout.partitions.map (RomImagePartition.target suffix)) b prepared := by
    have hlimitedInv := foldlM_invariant
      (fun group _ s s' hs h => Prepared.of_partitions hs (prepareGroup_spec h).1) hstart hlimited
    apply foldlM_invariant _ hlimitedInv hprepared
    intro part hpart s s' hs h
    exact hs.step (mem_map_of_mem hpart) (hslot part hpart) h
  rw [hfinal]
  refine ⟨fun base hbase => ?_, fun part hpart => ?_, fun group hgroup => ?_, fun p hout => ?_⟩
  · constructor
    · intro hmem
      obtain ⟨p, hp, hname⟩ := mem_map.mp hmem
      have hdesired := hinv.only p hp (inSlot_iff.mpr ⟨base, hbase, hname⟩)
      obtain ⟨part, hpart, htarget⟩ := mem_map.mp hdesired
      have hsame := htarget.trans hname
      exact (String.append_left_inj suffix).mp hsame ▸ mem_map_of_mem hpart
    · intro hmem
      obtain ⟨part, hpart, rfl⟩ := mem_map.mp hmem
      obtain ⟨p, hp, hsettled⟩ := hsettled part hpart
      exact mem_map.mpr ⟨p, hp, hsettled.1⟩
  · obtain ⟨p, hp, hname, hgroup, hattributes⟩ := hsettled part hpart
    refine ⟨p, hp, hname, hgroup, hattributes, fun q hq heq => ?_⟩
    obtain ⟨p', hp', hname', hsize⟩ := hinv.sizes q hq ((heq.trans hname) ▸ mem_map_of_mem hpart)
    rw [eq_of_name hp hp' (heq.symm.trans hname'.symm), hsize]
  · have hmem := hgroups ▸ hlimits group hgroup
    exact ⟨_, hkept _ hmem (mem_map_of_mem hgroup), rfl, rfl⟩
  · exact hinv.frame p (mt inSlot_iff.mp hout)

def bareSuffix : MetadataBuilder where
  partitions := [⟨"system_a", "main_a", 1024, 0⟩, ⟨"my_a", "old_a", 512, 1⟩, ⟨"system_b", "main_b", 512, 1⟩,
    ⟨"_a", "main_a", 512, 1⟩]
  groups := [⟨"main_a", 2048⟩, ⟨"old_a", 512⟩, ⟨"main_b", 2048⟩]
  blockSize := 512
  capacity := 8192
  unique := by decide
  uniqueGroups := by decide
  grouped := by decide
  blockSize_pos := sector_pos
  aligned := by decide

def twoPartitions : RomImageLayout where
  groups := [⟨"main", 4096⟩, ⟨"product", 1024⟩]
  partitions := [⟨"system", "main", 1⟩, ⟨"product", "product", 1⟩]

theorem planRomImageLayout_bareSuffix :
    ∃ b', planRomImageLayout bareSuffix twoPartitions "_a" [⟨"product_a", 512⟩, ⟨"system_a", 512⟩] = .ok b' ∧
      "my_a" ∉ b'.partitions.map Partition.name ∧ ⟨"system_b", "main_b", 512, 1⟩ ∈ b'.partitions := by
  obtain ⟨b', hb'⟩ : ∃ b', planRomImageLayout bareSuffix twoPartitions "_a"
      [⟨"product_a", 512⟩, ⟨"system_a", 512⟩] = .ok b' := ⟨_, rfl⟩
  obtain ⟨hnames, -, -, hframe⟩ := planRomImageLayout_exact _ _ _ _ _ hb'
  refine ⟨b', hb', ?_, (hframe _ (mt inSlot_iff.mpr (by decide))).mpr (by decide)⟩
  exact mt (hnames "my" (by decide)).mp (by decide)

/-- The partition named by the bare suffix ends in it, is not in the layout and is not removed. -/
theorem bareSuffix_survives :
    ∃ b', planRomImageLayout bareSuffix twoPartitions "_a" [⟨"product_a", 512⟩, ⟨"system_a", 512⟩] = .ok b' ∧
      ∃ p ∈ b'.partitions, "_a".toList <:+ p.name.toList ∧
        p.name ∉ twoPartitions.partitions.map (RomImagePartition.target "_a") :=
  ⟨_, rfl, ⟨"_a", "main_a", 512, 1⟩, by decide, by decide, by decide⟩

end AeraRecovery.Super.RomLayout
