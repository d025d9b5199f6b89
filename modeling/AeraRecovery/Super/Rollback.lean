import AeraRecovery.Super.Prepare

namespace AeraRecovery.Super

open List Function

structure Device extends World where
  consistent : ∀ name table, mapped name = some table → table = toWorld.table ∧ toWorld.Has name

def Restored (start final : World) : Prop :=
  final.table = start.table ∧ ∀ name, start.mapped name ≠ none → final.mapped name = some start.table

namespace World

variable (w : World) (names : List String)

def without : World :=
  { w with mapped := fun name => if name ∈ names then none else w.mapped name }

def mapping : World :=
  { w with mapped := fun name => if name ∈ names ∧ w.mapped name = none ∧ w.Has name then some w.table
      else w.mapped name }

variable {w} {w' : World} {name : String}

theorem destroyLogicalPartition_eq_some_iff :
    w.destroyLogicalPartition name = some w' ↔ w.mapped name ≠ none ∧ w' = w.without [name] := by
  have hstep : (⟨w.table, update w.mapped name none⟩ : World) = w.without [name] := by
    apply World.ext
    · rfl
    · funext n
      simp only [without, update_apply, mem_singleton]
  rw [destroyLogicalPartition, Option.ite_none_right_eq_some, Option.isSome_iff_ne_none, hstep, Option.some_inj,
    eq_comm]

theorem createLogicalPartition_eq_some_iff :
    w.createLogicalPartition name = some w' ↔ w.mapped name = none ∧ w.Has name ∧ w' = w.mapping [name] := by
  rw [createLogicalPartition, Option.ite_none_right_eq_some, Option.isNone_iff_eq_none, and_assoc, Option.some_inj]
  refine and_congr_right fun hnone => and_congr_right fun hhas => ?_
  have hstep : (⟨w.table, update w.mapped name (some w.table)⟩ : World) = w.mapping [name] := by
    apply World.ext
    · rfl
    · funext n
      simp only [mapping, update_apply, mem_singleton]
      by_cases hn : n = name
      · subst hn
        rw [if_pos rfl, if_pos ⟨rfl, hnone, hhas⟩]
      · rw [if_neg hn, if_neg fun h => hn h.1]
  rw [hstep, eq_comm]

theorem destroyLogicalPartition_eq_none_iff : w.destroyLogicalPartition name = none ↔ w.mapped name = none := by
  rw [destroyLogicalPartition, ite_eq_right_iff, Option.isSome_iff_ne_none]
  simp only [reduceCtorEq, imp_false, not_not]

theorem createLogicalPartition_eq_none_iff :
    w.createLogicalPartition name = none ↔ ¬ (w.mapped name = none ∧ w.Has name) := by
  rw [createLogicalPartition, ite_eq_right_iff, Option.isNone_iff_eq_none]
  simp only [reduceCtorEq, imp_false]

theorem mapped_without : (w.without names).mapped name = if name ∈ names then none else w.mapped name :=
  rfl

theorem mapped_mapping : (w.mapping names).mapped name =
      if name ∈ names ∧ w.mapped name = none ∧ w.Has name then some w.table else w.mapped name :=
  rfl

theorem without_nil : w.without [] = w := by
  simp only [without, not_mem_nil, if_false]

theorem without_without (names names' : List String) : (w.without names).without names' = w.without (names ++ names') := by
  apply World.ext
  · rfl
  · funext n
    simp only [without, mem_append]
    by_cases h : n ∈ names <;> by_cases h' : n ∈ names' <;> simp [h, h']

theorem without_of_unmapped (h : w.mapped name = none) : w.without [name] = w := by
  apply World.ext
  · rfl
  · funext n
    simp only [without, mem_singleton]
    split_ifs with hn
    · rw [hn, h]
    · rfl

theorem mapping_nil : w.mapping [] = w := by
  simp only [mapping, not_mem_nil, false_and, if_false]

theorem mapping_mapping (names names' : List String) : (w.mapping names).mapping names' = w.mapping (names ++ names') := by
  apply World.ext
  · rfl
  · funext n
    by_cases h : n ∈ names ∧ w.mapped n = none ∧ w.Has n
    · have hfirst : (w.mapping names).mapped n = some w.table := by rw [mapped_mapping, if_pos h]
      have hboth : (w.mapping (names ++ names')).mapped n = some w.table := by
        rw [mapped_mapping, if_pos ⟨mem_append_left _ h.1, h.2⟩]
      rw [mapped_mapping, hfirst, hboth, if_neg fun hc => Option.some_ne_none _ hc.2.1]
    · have hfirst : (w.mapping names).mapped n = w.mapped n := by rw [mapped_mapping, if_neg h]
      rw [mapped_mapping names', hfirst, mapped_mapping (names ++ names')]
      refine if_congr ?_ rfl rfl
      rw [mem_append]
      constructor
      · rintro ⟨hin, hcan⟩
        exact ⟨.inr hin, hcan⟩
      · rintro ⟨hin | hin, hcan⟩
        · exact absurd ⟨hin, hcan⟩ h
        · exact ⟨hin, hcan⟩

theorem mapping_of_not (h : ¬ (w.mapped name = none ∧ w.Has name)) : w.mapping [name] = w := by
  apply World.ext
  · rfl
  · funext n
    simp only [mapping, mem_singleton]
    refine if_neg ?_
    rintro ⟨rfl, hn⟩
    exact h hn

end World

theorem rollbackDestroy_eq (s : World × Bool) (name : String) :
    rollbackDestroy s name = (s.1.without [name], s.2 && (s.1.mapped name).isSome) := by
  rw [rollbackDestroy, keepGoing]
  cases h : s.1.destroyLogicalPartition name with
  | none =>
    have hnone := World.destroyLogicalPartition_eq_none_iff.mp h
    rw [World.without_of_unmapped hnone, hnone, Option.isSome_none, Bool.and_false]
  | some w =>
    obtain ⟨hsome, rfl⟩ := World.destroyLogicalPartition_eq_some_iff.mp h
    rw [Option.isSome_iff_ne_none.mpr hsome, Bool.and_true]

variable (names : List String)

theorem foldl_rollbackDestroy_world (s : World × Bool) :
    (names.foldl rollbackDestroy s).1 = s.1.without names := by
  induction names generalizing s with
  | nil => exact World.without_nil.symm
  | cons name names ih =>
    rw [foldl_cons, ih, rollbackDestroy_eq, World.without_without, singleton_append]

variable {names : List String}

theorem foldl_rollbackDestroy_flag (hnames : names.Nodup) (s : World × Bool) :
    (names.foldl rollbackDestroy s).2 = true ↔ s.2 = true ∧ ∀ name ∈ names, s.1.mapped name ≠ none := by
  induction names generalizing s with
  | nil => exact (and_iff_left nofun).symm
  | cons name names ih =>
    obtain ⟨hfresh, hnames⟩ := nodup_cons.mp hnames
    have hothers : (∀ n ∈ names, (rollbackDestroy s name).1.mapped n ≠ none) ↔ ∀ n ∈ names, s.1.mapped n ≠ none := by
      refine forall₂_congr fun n hn => ?_
      have hne : n ∉ [name] := fun h => hfresh (mem_singleton.mp h ▸ hn)
      rw [rollbackDestroy_eq, World.mapped_without, if_neg hne]
    rw [foldl_cons, ih hnames, hothers, rollbackDestroy_eq, Bool.and_eq_true, Option.isSome_iff_ne_none, forall_mem_cons,
      and_assoc]

theorem foldl_rollbackRelease (w : World) (flag : Bool) :
    names.foldl rollbackRelease (w, flag) = (w.without names, flag) := by
  induction names generalizing w with
  | nil => rw [World.without_nil, foldl_nil]
  | cons name names ih =>
    have hstep : rollbackRelease (w, flag) name = (w.without [name], flag) := by
      rw [rollbackRelease]
      split_ifs with h
      · rw [rollbackDestroy_eq, h, Bool.and_true]
      · rw [Bool.not_eq_true, Option.isSome_eq_false_iff, Option.isNone_iff_eq_none] at h
        rw [World.without_of_unmapped h]
    rw [foldl_cons, hstep, ih, World.without_without, singleton_append]

theorem foldl_rollbackCreate_world (s : World × Bool) :
    (names.foldl rollbackCreate s).1 = s.1.mapping names := by
  induction names generalizing s with
  | nil => exact World.mapping_nil.symm
  | cons name names ih =>
    have hstep : (rollbackCreate s name).1 = s.1.mapping [name] := by
      rw [rollbackCreate, keepGoing]
      cases h : s.1.createLogicalPartition name with
      | none => exact (World.mapping_of_not (World.createLogicalPartition_eq_none_iff.mp h)).symm
      | some w => exact (World.createLogicalPartition_eq_some_iff.mp h).2.2
    rw [foldl_cons, ih, hstep, World.mapping_mapping, singleton_append]

theorem logicalName_has {table : MetadataBuilder} {suffix bare name : String}
    (h : logicalName table suffix bare = some name) :
    name ∈ table.partitions.map Partition.name ∧ (name = bare ++ suffix ∨ name = bare) := by
  simp only [logicalName, ne_eq, MetadataBuilder.findPartition_eq_none_iff, not_not] at h
  split_ifs at h with hsuffix hbare
  · obtain rfl := Option.some.inj h
    exact ⟨hsuffix, .inl rfl⟩
  · obtain rfl := Option.some.inj h
    exact ⟨hbare, .inr rfl⟩

theorem rollback_world {original : MetadataBuilder} {suffix : String} {s : Flash}
    (hnames : (s.journal.resized.mapM fun part => logicalName original suffix part.bare) = some names)
    (hnodup : names.Nodup) (htouched : s.journal.untouched = false) : ∃ released : Bool, (released = true ↔
      ∀ name ∈ names, name ∉ s.journal.layoutMappings ∧ s.world.mapped name ≠ none) ∧
      (rollback original suffix s).1 = World.mapping ⟨if released then original else s.world.table, (s.world.without
          (s.journal.layoutMappings ++ names)).mapped⟩ (names ++ (s.journal.originalMappings.filter fun name =>
            (original.findPartition name).isSome) ++ s.journal.unmappedCows) := by
  refine ⟨(names.foldl rollbackDestroy (s.world.without s.journal.layoutMappings, true)).2, ?_, ?_⟩
  · rw [foldl_rollbackDestroy_flag hnodup, and_iff_right rfl]
    refine forall₂_congr fun name _ => ?_
    rw [World.mapped_without]
    split_ifs with h
    · simp only [ne_eq, not_true_eq_false, h, false_and]
    · simp only [h, not_false_eq_true, true_and]
  · rw [rollback, htouched, if_neg Bool.false_ne_true, hnames, foldl_rollbackRelease]
    simp only [foldl_rollbackCreate_world, foldl_rollbackDestroy_world, World.without_without]
    rfl

theorem rollback_restores_iff (start : Device) (suffix : String) {s : Flash}
    (hnames : (s.journal.resized.mapM fun part => logicalName start.table suffix part.bare) = some names)
    (hnodup : names.Nodup) (htable : s.journal.metadataChanged = false → s.world.table = start.table)
    (hlost : ∀ name, start.mapped name ≠ none → s.world.mapped name = start.mapped name ∨
      name ∈ s.journal.layoutMappings ∨ name ∈ names ∨ s.world.mapped name = none ∧ name ∈ s.journal.unmappedCows) :
    Restored start.toWorld (rollback start.table suffix s).1 ↔ (s.world.table = start.table ∨
        ∀ name ∈ names, name ∉ s.journal.layoutMappings ∧ s.world.mapped name ≠ none) ∧
      ∀ name ∈ s.journal.layoutMappings, start.mapped name ≠ none →
        name ∈ names ∨ name ∈ s.journal.originalMappings ∨ name ∈ s.journal.unmappedCows := by
  have hhas : ∀ name, start.mapped name ≠ none → start.Has name ∧ start.mapped name = some start.table := by
    intro name hname
    obtain ⟨table, htable⟩ := Option.ne_none_iff_exists'.mp hname
    obtain ⟨rfl, hhas⟩ := start.consistent name table htable
    exact ⟨hhas, htable⟩
  by_cases huntouched : s.journal.untouched
  · have hempty := huntouched
    simp only [Journal.untouched, Bool.and_eq_true, List.isEmpty_iff, Bool.not_eq_true'] at hempty
    obtain ⟨⟨⟨hresized, hchanged⟩, hnocows⟩, hnolayout⟩ := hempty
    rw [hresized] at hnames
    obtain rfl : [] = names := Option.some.inj hnames
    rw [rollback, if_pos huntouched, hnolayout]
    refine iff_of_true ⟨htable hchanged, fun name hname => ?_⟩ ⟨.inl (htable hchanged), nofun⟩
    have hkept := hlost name hname
    rw [hnolayout, hnocows] at hkept
    rw [← (hhas name hname).2]
    simpa using hkept
  obtain ⟨released, hreleased, hworld⟩ := rollback_world hnames hnodup (Bool.not_eq_true _ ▸ huntouched)
  have hback : (if released then start.table else s.world.table) = start.table ↔ s.world.table = start.table ∨
      ∀ name ∈ names, name ∉ s.journal.layoutMappings ∧ s.world.mapped name ≠ none := by
    rw [← hreleased]
    cases released <;> simp
  rw [hworld, ← hback]
  generalize (if released = true then start.table else s.world.table) = table
  refine and_congr_right fun htable => ⟨fun hmapped name hlayout hname => ?_, fun hjournals name hname => ?_⟩
  · have hfinal := hmapped name hname
    rw [World.mapped_mapping, World.mapped_without, if_pos (mem_append_left _ hlayout)] at hfinal
    split_ifs at hfinal with h
    simp only [mem_append, mem_filter] at h
    rcases h.1 with (hresized | hexisted) | hcow
    · exact .inl hresized
    · exact .inr (.inl hexisted.1)
    · exact .inr (.inr hcow)
  · obtain ⟨hin, hstart⟩ := hhas name hname
    have hfound : (start.table.findPartition name).isSome := by
      rw [Option.isSome_iff_ne_none, ne_eq, MetadataBuilder.findPartition_eq_none_iff]
      exact not_not.mpr hin
    obtain rfl : table = start.table := htable
    rw [World.mapped_mapping, World.mapped_without]
    by_cases hgone : name ∈ s.journal.layoutMappings ++ names
    · rw [if_pos hgone, if_pos]
      refine ⟨?_, rfl, hin⟩
      simp only [mem_append, mem_filter, hfound, and_true] at hgone ⊢
      rcases hgone with hlayout | hresized
      · rw [or_assoc]
        exact hjournals name hlayout hname
      · exact .inl (.inl hresized)
    · rw [if_neg hgone]
      rw [mem_append, not_or] at hgone
      rcases hlost name hname with hkept | hlayout | hresized | ⟨hnone, hcow⟩
      · rw [hkept, hstart, if_neg fun h => Option.some_ne_none _ h.2.1]
      · exact absurd hlayout hgone.1
      · exact absurd hresized hgone.2
      · rw [hnone, if_pos ⟨mem_append_right _ hcow, rfl, hin⟩]

end AeraRecovery.Super
