import AeraRecovery.Lib.Lists
import AeraRecovery.Super.Rollback

namespace AeraRecovery.Super

open Lib.Checks Lib.Commands Lib.Lists Command FlashLayout RomLayout MetadataBuilder List

variable {updated : MetadataBuilder}

namespace Plan

variable (p : Plan)

/-- The name under which a resized target of the fstab is released and mapped. -/
def resizedName : Selected → Option String
  | .super _ part image =>
    if part.bare ++ p.batch.suffix ∈ p.changed ∨ part.bare ∈ p.changed then some image.name else none
  | _ => none

def resizedNames : List String := p.entries.filterMap p.resizedName

/-- When the rollback can bring back the table that was replaced, if `done` has been mapped since: there was no
difference, or every resized target is mapped and the layout journal does not name it. -/
def Reverts (start : World) (done : List String) : Prop :=
  p.updated = .ok start.table ∨ ∀ name ∈ p.resizedNames, name ∉ p.layoutMappings ∧
    (name ∈ done ∨ name ∉ p.changed ∧ start.mapped name ≠ none)

def Safe (env : Environment) (start : World) : Reason → Prop
  | .layout _ | .limits => ∀ name ∈ p.layoutMappings, start.mapped name = none
  | .layoutTarget name => ∀ other ∈ p.layoutMappings, start.mapped other ≠ none →
      other ∈ p.resizedNames ∨ other ∈ p.layoutMappings.takeWhile (· ≠ name) ∨ other = name
  | .commit => env.written → p.Reverts start []
  | .mapTarget name => p.Reverts start (p.remap.takeWhile (· ≠ name))
  | .mapImage | .blockDevice _ | .claim => p.Reverts start p.remap
  | _ => True

def released : List String := p.layoutMappings ++ p.changed ++ p.cows

def Named : Prop :=
  ∀ target part image, Selected.super target part image ∈ p.entries →
    logicalName p.table p.batch.suffix part.bare = some image.name

def Distinct : Prop := (p.images.map LogicalImageSize.name).Nodup

variable {p}

theorem mapM_resized (hnamed : p.Named) :
    (p.resized.mapM fun part => logicalName p.table p.batch.suffix part.bare) = some p.resizedNames := by
  have hentries : ∀ entries : List Selected, (∀ e ∈ entries, e ∈ p.entries) →
      ((entries.filterMap p.resizedPart).mapM fun part => logicalName p.table p.batch.suffix part.bare) =
        some (entries.filterMap p.resizedName) := by
    intro entries hsub
    induction entries with
    | nil => rfl
    | cons e entries ih =>
      obtain ⟨he, hrest⟩ := forall_mem_cons.mp hsub
      have hih := ih hrest
      cases e with
      | device | logical | physical => exact hih
      | super target part image =>
        rw [filterMap_cons, filterMap_cons, resizedPart, resizedName]
        split_ifs
        · rw [mapM_cons, hnamed target part image he, hih]
          rfl
        · exact hih
  exact hentries p.entries fun _ h => h

theorem images_names : p.images.map LogicalImageSize.name =
    p.entries.filterMap fun e => e.image.map LogicalImageSize.name := by
  rw [images, map_filterMap]

theorem resizedNames_sublist : p.resizedNames.Sublist (p.images.map LogicalImageSize.name) := by
  rw [images_names]
  refine filterMap_sublist (fun e name he => ?_) _
  cases e with
  | device | logical | physical => cases he
  | super target part image =>
    rw [resizedName] at he
    split_ifs at he
    exact he

theorem changed_sublist : p.changed.Sublist (p.images.map LogicalImageSize.name) := filter_sublist.map _

theorem remap_sublist : p.remap.Sublist (p.images.map LogicalImageSize.name) := by
  rw [remap]
  cases p.batch.layout with
  | none => exact changed_sublist
  | some _ => exact Sublist.refl _

variable {name : String}

theorem mem_affected (h : name ∈ p.images.map LogicalImageSize.name) : name ∈ p.affected := by
  rw [affected, mem_insertionSort, mem_dedup]
  exact mem_append_right _ h

theorem mem_changed (hnamed : p.Named) (h : name ∈ p.changed) : name ∈ p.layoutMappings ∨ name ∈ p.resizedNames := by
  have himage := changed_sublist.subset h
  rw [layoutMappings]
  cases hlayout : p.batch.layout with
  | some _ => exact .inl (mem_affected himage)
  | none =>
    rw [images_names] at himage
    obtain ⟨e, he, hname⟩ := mem_filterMap.mp himage
    cases e with
    | device | physical => cases hname
    | logical target image =>
      exact .inl (mem_filter.mpr ⟨mem_filterMap.mpr ⟨_, he, hname⟩, decide_eq_true h⟩)
    | super target part image =>
      obtain rfl : image.name = name := Option.some.inj hname
      refine .inr (mem_filterMap.mpr ⟨_, he, if_pos ?_⟩)
      rcases (logicalName_has (hnamed target part image he)).2 with heq | heq
      · exact .inl (heq ▸ h)
      · exact .inr (heq ▸ h)

theorem updated_distinct (h : p.updated = .ok updated) : p.Distinct :=
  (planImageFlashLayout_ok_iff.mp h).2.1

theorem updated_cows (h : p.updated = .ok updated) (hname : name ∈ p.cows) :
    name ∉ p.images.map LogicalImageSize.name :=
  (ensure_ok_iff.mp ((planImageFlashLayout_ok_iff.mp h).2.2.1 name hname)).2.2.2

theorem packageNames_sublist : (p.entries.filterMap packageName).Sublist (p.images.map LogicalImageSize.name) := by
  rw [images_names]
  refine filterMap_sublist (fun e name he => ?_) _
  cases e with
  | device | physical | super => cases he
  | logical target image => exact he

theorem resizedNames_not_package (h : p.Distinct) (hname : name ∈ p.resizedNames) :
    name ∉ p.entries.filterMap packageName := by
  intro hpackage
  obtain ⟨e, he, hresized⟩ := mem_filterMap.mp hname
  obtain ⟨e', he', hlogical⟩ := mem_filterMap.mp hpackage
  rw [Distinct, images_names] at h
  cases e with
  | device | logical | physical => cases hresized
  | super target part image =>
    cases e' with
    | device | physical | super => cases hlogical
    | logical target' image' =>
      rw [resizedName] at hresized
      split_ifs at hresized
      exact Selected.noConfusion (eq_of_nodup_filterMap h he he' hresized hlogical)

end Plan

section

variable {env : Environment} {P : Flash → Prop} {E : Reason → Flash → Prop} {name : String} {reason : Reason}

variable {Q : Unit → Flash → Prop}

theorem triple_demand {c : Bool} (hok : c = true → ∀ s, P s → Q () s)
    (herror : c = false → ∀ s, P s → E reason s) : Triple P (demand c reason) Q E := by
  cases c with
  | true => exact hok rfl
  | false => exact herror rfl

theorem triple_record {f : Journal → Journal}
    (h : ∀ s, P s → Q () { s with journal := f s.journal }) : Triple P (record f) Q E := triple_modify h

theorem triple_isMapped : Triple P (isMapped name) (fun b s => P s ∧ b = (s.world.mapped name).isSome) E :=
  fun _ hs => ⟨hs, rfl⟩

theorem triple_destroy (hok : ∀ s, P s → s.world.mapped name ≠ none → Q () { s with world := s.world.without [name] })
    (herror : ∀ s, P s → E reason s) : Triple P (destroy env name reason) Q E := by
  refine triple_attempt (fun s s' hs h => ?_) fun s hs _ => herror s hs
  rw [onWorld, Option.ite_none_right_eq_some, Option.map_eq_some_iff] at h
  obtain ⟨-, w, hw, rfl⟩ := h
  obtain ⟨hmapped, rfl⟩ := World.destroyLogicalPartition_eq_some_iff.mp hw
  exact hok s hs hmapped

theorem triple_map
    (hok : ∀ s, P s → s.world.mapped name = none → s.world.Has name → Q () { s with world := s.world.mapping [name] })
    (herror : ∀ s, P s → E reason s) : Triple P (map env name reason) Q E := by
  refine triple_attempt (fun s s' hs h => ?_) fun s hs _ => herror s hs
  rw [onWorld, Option.ite_none_right_eq_some, Option.map_eq_some_iff] at h
  obtain ⟨-, w, hw, rfl⟩ := h
  obtain ⟨hnone, hhas, rfl⟩ := World.createLogicalPartition_eq_some_iff.mp hw
  exact hok s hs hnone hhas

theorem triple_when {c : Prop} [Decidable c] {m : Command Reason Flash Unit}
    (hpos : c → Triple P m Q E) (hneg : ¬ c → ∀ s, P s → Q () s) : Triple P (if c then m else pure ()) Q E := by
  by_cases h : c
  · rw [if_pos h]
    exact hpos h
  · rw [if_neg h]
    exact triple_pure (hneg h)

end

section

variable (env : Environment) (p : Plan) (start : World)

/-- A state reached after the layout mappings were released, by what has been released and what was mapped since. -/
structure After (table : MetadataBuilder) (gone done : List String) (s : Flash) : Prop where
  distinct : p.Distinct
  resized : s.journal.resized = p.resized
  layout : s.journal.layoutMappings = p.layoutMappings
  cows : ∀ name ∈ s.journal.unmappedCows, name ∈ p.cows
  original : ∀ name ∈ p.layoutMappings, start.mapped name ≠ none → name ∈ s.journal.originalMappings
  current : s.world.table = table
  kept : s.journal.metadataChanged = false → table = start.table
  mapped : ∀ name, s.world.mapped name =
    if name ∈ done then some table else if name ∈ gone then none else start.mapped name
  lost : ∀ name ∈ gone, start.mapped name ≠ none →
    name ∈ p.layoutMappings ∨ name ∈ p.changed ∨ name ∈ s.journal.unmappedCows
  fresh : ∀ name ∈ done, start.mapped name ≠ none → name ∈ gone

structure Releasing (done : List String) (j : Journal) : Prop where
  distinct : p.Distinct
  resized : j.resized = p.resized
  layout : j.layoutMappings = p.layoutMappings
  changed : j.metadataChanged = false
  cows : j.unmappedCows = []
  original : ∀ name, name ∈ j.originalMappings ↔ name ∈ done ∧ start.mapped name ≠ none

/-- A state in which the new table is in place, or none was needed, and `done` has been mapped since. -/
def Ready (done : List String) (s : Flash) : Prop :=
  (∃ updated, p.updated = .ok updated ∧ After p start updated p.released done s) ∨
    p.changed = [] ∧ p.cows = [] ∧ After p start start.table [] done s

/-- Everything is prepared, up to images of the package that were not mapped before. -/
def Finished (s : Flash) : Prop :=
  ∃ extra, (∀ name ∈ extra, name ∈ p.entries.filterMap Plan.packageName) ∧ Ready p start (p.remap ++ extra) s

def Stopped : Reason → Flash → Prop
  | .layout _, s | .limits, s => s = ⟨start, { layoutMappings := p.layoutMappings }⟩
  | .layoutTarget name, s => ∃ done todo, p.layoutMappings = done ++ name :: todo ∧ name ∉ done ∧
      Releasing p start (done ++ [name]) s.journal ∧ s.world = start.without done
  | .logicalTarget _, s | .staleCow _, s | .snapshotsChanged, s => ∃ gone, After p start start.table gone [] s
  | .commit, s => ∃ updated, p.updated = .ok updated ∧
      After p start (if env.written then updated else start.table) p.released [] s
  | .mapTarget name, s => ∃ updated done todo, p.updated = .ok updated ∧ p.remap = done ++ name :: todo ∧
      After p start updated p.released done s
  | .mapImage, s | .blockDevice _, s | .claim, s => Finished p start s
  | _, _ => False

theorem triple_releaseLayout :
    Triple (fun s => Releasing p start [] s.journal ∧ s.world = start) (p.layoutMappings.forM (releaseLayout env))
      (fun _ s => Releasing p start p.layoutMappings s.journal ∧ s.world = start.without p.layoutMappings)
      (Stopped env p start) := by
  refine (triple_forM (I := fun done s => Releasing p start done s.journal ∧ s.world = start.without done)
    fun done name todo hsplit => ?_).mono (fun s hs => ⟨hs.1, hs.2.trans World.without_nil.symm⟩) (fun _ _ h => h)
      fun _ _ h => h
  refine triple_bind triple_isMapped fun b => triple_when (fun hb => ?_) fun hb s hs => ?_
  · refine triple_bind (R := fun _ s => Releasing p start (done ++ [name]) s.journal ∧ s.world = start.without done ∧
      (start.without done).mapped name ≠ none) (triple_record fun s hs => ?_) fun _ => triple_destroy ?_ ?_
    · obtain ⟨⟨hr, hworld⟩, hflag⟩ := hs
      have hmapped : (start.without done).mapped name ≠ none := by
        rw [← hworld, ← Option.isSome_iff_ne_none, ← hflag, hb]
      refine ⟨{ hr with original := fun n => ?_ }, hworld, hmapped⟩
      rw [World.mapped_without] at hmapped
      simp only [mem_append, mem_singleton, hr.original n, or_and_right]
      refine or_congr_right ⟨?_, And.left⟩
      rintro rfl
      exact ⟨rfl, fun hnone => hmapped (by rw [hnone, ite_self])⟩
    · rintro s ⟨hr, hworld, -⟩ -
      exact ⟨hr, by rw [hworld, World.without_without]⟩
    · rintro s ⟨hr, hworld, hmapped⟩
      refine ⟨done, todo, hsplit, fun hdone => hmapped ?_, hr, hworld⟩
      rw [World.mapped_without, if_pos hdone]
  · obtain ⟨⟨hr, hworld⟩, hflag⟩ := hs
    have hnone : (start.without done).mapped name = none := by
      rw [← hworld, ← Option.not_isSome_iff_eq_none, ← hflag]
      exact hb
    refine ⟨{ hr with original := fun n => ?_ }, ?_⟩
    · rw [World.mapped_without] at hnone
      simp only [mem_append, mem_singleton, hr.original n, or_and_right]
      refine (or_iff_left_of_imp ?_).symm
      rintro ⟨rfl, hmapped⟩
      exact ⟨by_contra fun hdone => hmapped (by rwa [if_neg hdone] at hnone), hmapped⟩
    · rw [hworld, ← World.without_without, World.without_of_unmapped hnone]

variable {p start} {table : MetadataBuilder} {gone done : List String} {s : Flash}

theorem Releasing.after (h : Releasing p start p.layoutMappings s.journal)
    (hworld : s.world = start.without p.layoutMappings) : After p start start.table p.layoutMappings [] s where
  distinct := h.distinct
  resized := h.resized
  layout := h.layout
  cows := by simp [h.cows]
  original name hname hmapped := (h.original name).mpr ⟨hname, hmapped⟩
  current := by rw [hworld, World.without]
  kept _ := rfl
  mapped name := by
    rw [hworld, World.mapped_without, if_neg not_mem_nil]
  lost name hname _ := .inl hname
  fresh := nofun

theorem After.of_mem {gone' : List String} (h : After p start table gone done s)
    (hgone : ∀ name, name ∈ gone' ↔ name ∈ gone) : After p start table gone' done s :=
  { h with
    mapped := fun name => by
      rw [h.mapped name]
      exact if_congr Iff.rfl rfl (if_congr (hgone name).symm rfl rfl)
    lost := fun name hname => h.lost name ((hgone name).mp hname)
    fresh := fun name hname hmapped => (hgone name).mpr (h.fresh name hname hmapped) }

variable {name : String}

theorem After.without (h : After p start table gone [] s)
    (hname : start.mapped name ≠ none → name ∈ p.layoutMappings ∨ name ∈ p.changed ∨ name ∈ s.journal.unmappedCows) :
    After p start table (gone ++ [name]) [] { s with world := s.world.without [name] } :=
  { h with
    mapped := fun n => by
      rw [World.mapped_without, h.mapped n, if_neg not_mem_nil, if_neg not_mem_nil]
      by_cases hn : n ∈ [name] <;> by_cases hg : n ∈ gone <;> simp [hn, hg]
    lost := fun n hn hmapped => by
      rcases mem_append.mp hn with hn | hn
      · exact h.lost n hn hmapped
      · obtain rfl := mem_singleton.mp hn
        exact hname hmapped
    fresh := nofun }

theorem After.recordCow (h : After p start table gone done s) (hname : name ∈ p.cows) : After p start table gone done
      { s with journal := { s.journal with unmappedCows := s.journal.unmappedCows ++ [name] } } :=
  { h with
    cows := fun n hn => by
      rcases mem_append.mp hn with hn | hn
      · exact h.cows n hn
      · exact mem_singleton.mp hn ▸ hname
    lost := fun n hn hmapped => (h.lost n hn hmapped).imp_right (.imp_right (mem_append_left _)) }

theorem After.mapping (h : After p start table gone done s) (hnone : s.world.mapped name = none)
    (hhas : s.world.Has name) :
    After p start table gone (done ++ [name]) { s with world := s.world.mapping [name] } :=
  { h with
    mapped := fun n => by
      rw [World.mapped_mapping, h.current]
      by_cases hn : n = name
      · subst hn
        rw [if_pos ⟨mem_singleton_self _, hnone, hhas⟩, if_pos (mem_append_right _ (mem_singleton_self _))]
      · rw [if_neg fun hc => hn (mem_singleton.mp hc.1), h.mapped n]
        refine if_congr ?_ rfl rfl
        rw [mem_append, mem_singleton, or_iff_left hn]
    fresh := fun n hn hmapped => by
      rcases mem_append.mp hn with hn | hn
      · exact h.fresh n hn hmapped
      · obtain rfl := mem_singleton.mp hn
        by_contra hgone
        rw [h.mapped n] at hnone
        split_ifs at hnone
        exact hmapped hnone }

theorem triple_releaseTarget :
    Triple (After p start start.table p.layoutMappings []) (p.changed.forM (releaseTarget env p.layoutMappings))
      (fun _ => After p start start.table (p.layoutMappings ++ p.changed) []) (Stopped env p start) := by
  refine (triple_forM (I := fun done => After p start start.table (p.layoutMappings ++ done) [])
    fun done name todo hsplit => ?_).mono (fun s hs => by rwa [append_nil]) (fun _ _ h => h) fun _ _ h => h
  rw [← append_assoc]
  refine triple_when (fun hnot => triple_destroy (fun s hs _ => hs.without fun _ => .inr (.inl ?_)) fun s hs => ⟨_, hs⟩)
    fun hin s hs => hs.of_mem fun n => ?_
  · rw [hsplit]
    exact mem_append_right _ mem_cons_self
  · rw [mem_append, mem_singleton]
    refine or_iff_left_of_imp ?_
    rintro rfl
    exact mem_append_left _ (not_not.mp hin)

theorem triple_releaseCow :
    Triple (After p start start.table (p.layoutMappings ++ p.changed) []) (p.cows.forM (releaseCow env))
      (fun _ => After p start start.table p.released []) (Stopped env p start) := by
  refine (triple_forM (I := fun done => After p start start.table (p.layoutMappings ++ p.changed ++ done) [])
    fun done name todo hsplit => ?_).mono (fun s hs => by rwa [append_nil]) (fun _ _ h => h) fun _ _ h => h
  rw [← append_assoc, releaseCow]
  refine triple_bind triple_isMapped fun b => triple_when (fun hb => ?_) fun hb s hs => ?_
  · refine triple_bind (triple_destroy (fun s hs _ => ?_) fun s hs => ⟨_, hs.1⟩) fun _ => triple_record fun s hs => hs
    have hcow : name ∈ p.cows := hsplit ▸ mem_append_right _ mem_cons_self
    exact (hs.1.recordCow hcow).without fun _ => .inr (.inr (mem_append_right _ (mem_singleton_self _)))
  · obtain ⟨hs, hflag⟩ := hs
    have hnone : s.world.mapped name = none := by
      rw [← Option.not_isSome_iff_eq_none, ← hflag]
      exact hb
    have hgone : start.mapped name ≠ none → name ∈ p.layoutMappings ++ p.changed ++ done := by
      intro hmapped
      by_contra hnot
      rw [hs.mapped name, if_neg not_mem_nil, if_neg hnot] at hnone
      exact hmapped hnone
    have hstep := hs.without fun hmapped => hs.lost name (hgone hmapped) hmapped
    rwa [World.without_of_unmapped hnone] at hstep

section

variable (hupdated : p.updated = .ok updated)

include hupdated

theorem triple_updatePartitionTable :
    Triple (fun s => After p start start.table p.released [] s ∧ s.journal.metadataChanged = true)
      (updatePartitionTable env updated) (fun _ => After p start updated p.released []) (Stopped env p start) := by
  refine triple_bind (R := fun _ => After p start (if env.commits || env.written then updated else start.table)
    p.released []) (triple_modify fun s hs => ?_) fun _ => triple_demand (fun hok s hs => ?_) fun hfail s hs => ?_
  · obtain ⟨hs, hchanged⟩ := hs
    split_ifs
    · exact { hs with
        current := rfl
        kept := fun hkept => absurd (hchanged.symm.trans hkept) Bool.noConfusion
        mapped := hs.mapped }
    · exact hs
  · simpa only [hok, Bool.true_or, if_true] using hs
  · rw [hfail, Bool.false_or] at hs
    exact ⟨updated, hupdated, hs⟩

theorem triple_remap :
    Triple (After p start updated p.released []) (p.remap.forM fun name => map env name (.mapTarget name))
      (fun _ => After p start updated p.released p.remap) (Stopped env p start) := by
  refine triple_forM (I := fun done => After p start updated p.released done) fun done name todo hsplit => ?_
  refine triple_map (fun s hs hnone hhas => hs.mapping hnone hhas) fun s hs => ⟨updated, done, todo, hupdated, hsplit, hs⟩

theorem triple_replaceTable :
    Triple (fun s => s = ⟨start, { layoutMappings := p.layoutMappings }⟩) (replaceTable env p updated)
      (fun _ => Ready p start p.remap) (Stopped env p start) := by
  refine triple_bind (triple_record (Q := fun _ s => Releasing p start [] s.journal ∧ s.world = start) ?_) fun _ =>
    triple_bind (triple_releaseLayout env p start) fun _ =>
    triple_bind ((triple_releaseTarget env).mono (fun s hs => hs.1.after hs.2) (fun _ _ h => h) fun _ _ h => h) fun _ =>
    triple_bind (triple_releaseCow env) fun _ =>
    triple_check (fun _ => triple_bind (triple_record fun s hs => ⟨{ hs with kept := nofun }, rfl⟩) fun _ =>
      triple_bind (triple_updatePartitionTable env hupdated) fun _ => (triple_remap env hupdated).mono (fun _ hs => hs)
        (fun _ s hs => .inl ⟨updated, hupdated, hs⟩) fun _ _ h => h) fun _ s hs => ⟨_, hs⟩
  rintro s rfl
  exact ⟨⟨Plan.updated_distinct hupdated, rfl, rfl, rfl, rfl, fun name => by simp⟩, rfl⟩

end

theorem triple_prepareLogical :
    Triple (fun s => s = ⟨start, {}⟩) (prepareLogical env p) (fun _ => Ready p start p.remap) (Stopped env p start) := by
  refine triple_bind (triple_record (Q := fun _ s => s = ⟨start, { layoutMappings := p.layoutMappings }⟩) ?_) fun _ =>
    ?_
  · rintro s rfl
    rfl
  cases hupdated : p.updated with
  | error message =>
    refine triple_try nofun ?_
    rintro _ ⟨⟩ s hs
    exact hs
  | ok updated =>
    refine triple_try ?_ nofun
    rintro _ ⟨⟩
    refine triple_check (fun _ => triple_when (fun _ => triple_replaceTable env hupdated) ?_) fun _ s hs => hs
    rintro hnot s rfl
    simp only [Plan.replaces, not_or, Bool.not_eq_true, Option.isSome_eq_false_iff, Option.isNone_iff_eq_none,
      ne_eq, not_not] at hnot
    obtain ⟨hlayout, hchanged, hcows⟩ := hnot
    have hremap : p.remap = [] := by rw [Plan.remap, hlayout, hchanged]
    have hempty : p.layoutMappings = [] := by simp [Plan.layoutMappings, hlayout, hchanged]
    have hresized : p.resized = [] := by
      refine filterMap_eq_nil_iff.mpr fun e _ => ?_
      cases e <;> simp [Plan.resizedPart, hchanged]
    refine .inr ⟨hchanged, hcows, ?_⟩
    rw [hremap]
    exact ⟨Plan.updated_distinct hupdated, hresized.symm, rfl, nofun, by simp [hempty], rfl, fun _ => rfl,
      fun _ => rfl, nofun, nofun⟩

theorem Ready.mapping (h : Ready p start done s) (hnone : s.world.mapped name = none)
    (hhas : s.world.Has name) : Ready p start (done ++ [name]) { s with world := s.world.mapping [name] } := by
  rcases h with ⟨updated, hupdated, h⟩ | ⟨hchanged, hcows, h⟩
  · exact .inl ⟨updated, hupdated, h.mapping hnone hhas⟩
  · exact .inr ⟨hchanged, hcows, h.mapping hnone hhas⟩

theorem triple_finishTargets :
    Triple (Ready p start p.remap) (p.entries.forM (finishTarget env)) (fun _ => Finished p start)
      (Stopped env p start) := by
  refine (triple_forM (I := fun _ => Finished p start) fun done e todo hsplit => ?_).mono
    (fun s hs => ⟨[], nofun, by rwa [append_nil]⟩) (fun _ _ h => h) fun _ _ h => h
  have he : e ∈ p.entries := hsplit ▸ mem_append_right _ mem_cons_self
  cases e with
  | device target => exact triple_pure fun s hs => hs
  | physical target part | super target part image => exact triple_demand (fun _ s hs => hs) fun _ s hs => hs
  | logical target image =>
    refine triple_bind triple_isMapped fun b => triple_when (fun _ => triple_map ?_ fun s hs => hs.1)
      fun _ s hs => hs.1
    rintro s ⟨⟨extra, hextra, hready⟩, -⟩ hnone hhas
    refine ⟨extra ++ [image.name], fun name hname => ?_, ?_⟩
    · rcases mem_append.mp hname with hname | hname
      · exact hextra name hname
      · exact mem_filterMap.mpr ⟨_, he, congrArg some (mem_singleton.mp hname).symm⟩
    · rw [← append_assoc]
      exact hready.mapping hnone hhas

end

section

variable {env : Environment} {p : Plan} {start : Device} {s : Flash} {table : MetadataBuilder} {gone done : List String}

theorem After.lost_journaled (h : After p start.toWorld table gone done s) (hnamed : p.Named)
    (hdone : ∀ name ∈ done, name ∉ p.cows) (name : String) (hname : start.mapped name ≠ none) :
    s.world.mapped name = start.mapped name ∨ name ∈ s.journal.layoutMappings ∨ name ∈ p.resizedNames ∨
      s.world.mapped name = none ∧ name ∈ s.journal.unmappedCows := by
  have hgone : name ∈ gone →
      (name ∈ s.journal.layoutMappings ∨ name ∈ p.resizedNames) ∨ name ∈ s.journal.unmappedCows := by
    intro hgone
    rw [h.layout]
    rcases h.lost name hgone hname with hlayout | hchanged | hcow
    · exact .inl (.inl hlayout)
    · exact .inl (Plan.mem_changed hnamed hchanged)
    · exact .inr hcow
  rw [h.mapped name, ← or_assoc (a := _ ∈ s.journal.layoutMappings)]
  split_ifs with hin hout
  · exact .inr (.inl ((hgone (h.fresh name hin hname)).resolve_right fun hcow => hdone name hin (h.cows name hcow)))
  · exact .inr ((hgone hout).imp_right fun hcow => ⟨rfl, hcow⟩)
  · exact .inl rfl

theorem After.rollback_iff (h : After p start.toWorld table gone done s) (hnamed : p.Named)
    (htable : p.table = start.table) (hdone : ∀ name ∈ done, name ∉ p.cows) :
    Restored start.toWorld (rollback start.table p.batch.suffix s).1 ↔
      table = start.table ∨ ∀ name ∈ p.resizedNames, name ∉ p.layoutMappings ∧
        (name ∈ done ∨ name ∉ gone ∧ start.mapped name ≠ none) := by
  have hnames := Plan.mapM_resized hnamed
  rw [htable, ← h.resized] at hnames
  rw [rollback_restores_iff start p.batch.suffix hnames (h.distinct.sublist Plan.resizedNames_sublist)
    (fun hkept => h.current.trans (h.kept hkept)) (h.lost_journaled hnamed hdone), h.current, h.layout]
  have horiginal : ∀ name ∈ p.layoutMappings, start.mapped name ≠ none →
      name ∈ p.resizedNames ∨ name ∈ s.journal.originalMappings ∨ name ∈ s.journal.unmappedCows :=
    fun name hlayout hname => .inr (.inl (h.original name hlayout hname))
  rw [and_iff_left horiginal]
  refine or_congr_right (forall₂_congr fun name _ => and_congr_right fun _ => ?_)
  rw [h.mapped name]
  split_ifs with hin hout
  · simp [hin]
  · simp [hin, hout]
  · simp [hin, hout]

theorem After.restored_iff_reverts {done' : List String}
    (h : After p start.toWorld updated p.released done s) (hnamed : p.Named) (htable : p.table = start.table)
    (hupdated : p.updated = .ok updated) (himages : ∀ name ∈ done, name ∈ p.images.map LogicalImageSize.name)
    (hdone : ∀ name ∈ p.resizedNames, (name ∈ done ↔ name ∈ done')) :
    Restored start.toWorld (rollback start.table p.batch.suffix s).1 ↔ p.Reverts start.toWorld done' := by
  have hcows : ∀ name ∈ done, name ∉ p.cows := fun name hname hcow =>
    Plan.updated_cows hupdated hcow (himages name hname)
  rw [h.rollback_iff hnamed htable hcows, Plan.Reverts, hupdated, Except.ok.injEq]
  refine or_congr_right (forall₂_congr fun name hname => and_congr_right fun hlayout => ?_)
  have hcow : name ∉ p.cows := fun hcow =>
    Plan.updated_cows hupdated hcow (Plan.resizedNames_sublist.subset hname)
  rw [hdone name hname, Plan.released, mem_append, mem_append]
  simp only [hlayout, hcow, false_or, or_false]

theorem takeWhile_ne_eq {name : String} {l done todo : List String} (hl : l = done ++ name :: todo)
    (hname : name ∉ done) : l.takeWhile (· ≠ name) = done := by
  rw [hl, takeWhile_append_of_pos, takeWhile_cons_of_neg, append_nil]
  · simp
  · intro other hother
    exact decide_eq_true fun heq => hname (heq ▸ hother)

theorem resizedNames_of_unchanged (h : p.changed = []) : p.resizedNames = [] := by
  refine filterMap_eq_nil_iff.mpr fun e _ => ?_
  cases e <;> simp [Plan.resizedName, h]

theorem stopped_restored_iff {reason : Reason} (h : Stopped env p start.toWorld reason s) (hnamed : p.Named)
    (htable : p.table = start.table) :
    Restored start.toWorld (rollback start.table p.batch.suffix s).1 ↔ p.Safe env start.toWorld reason := by
  have hplanned : s = ⟨start.toWorld, { layoutMappings := p.layoutMappings }⟩ →
      (Restored start.toWorld (rollback start.table p.batch.suffix s).1 ↔
        ∀ name ∈ p.layoutMappings, start.mapped name = none) := by
    rintro rfl
    have hnames : (([] : List TWPartition).mapM fun part => logicalName start.table p.batch.suffix part.bare) =
        some [] := rfl
    rw [rollback_restores_iff start p.batch.suffix hnames nodup_nil (fun _ => rfl) fun name _ => .inl rfl]
    simp
  have hkept : (∃ gone, After p start.toWorld start.table gone [] s) →
      Restored start.toWorld (rollback start.table p.batch.suffix s).1 := by
    rintro ⟨gone, hafter⟩
    exact (hafter.rollback_iff hnamed htable (by simp)).mpr (.inl rfl)
  have hfinished : Finished p start.toWorld s →
      (Restored start.toWorld (rollback start.table p.batch.suffix s).1 ↔ p.Reverts start.toWorld p.remap) := by
    rintro ⟨extra, hextra, ⟨updated, hupdated, hafter⟩ | ⟨hchanged, hcows, hafter⟩⟩
    · refine hafter.restored_iff_reverts hnamed htable hupdated (fun name hname => ?_) fun name hname => ?_
      · rcases mem_append.mp hname with hname | hname
        · exact Plan.remap_sublist.subset hname
        · exact Plan.packageNames_sublist.subset (hextra name hname)
      · rw [mem_append]
        exact or_iff_left fun hin => Plan.resizedNames_not_package hafter.distinct hname (hextra name hin)
    · have hresized := resizedNames_of_unchanged hchanged
      refine iff_of_true ((hafter.rollback_iff hnamed htable ?_).mpr (.inl rfl)) (.inr ?_)
      · simp [hcows]
      · simp [hresized]
  cases reason with
  | layout | limits => exact hplanned h
  | logicalTarget | staleCow | snapshotsChanged => exact iff_of_true (hkept h) trivial
  | mapImage | blockDevice | claim => exact hfinished h
  | layoutTarget name =>
    obtain ⟨done, todo, hsplit, hfresh, hr, hworld⟩ := h
    have hnames := Plan.mapM_resized hnamed
    rw [htable, ← hr.resized] at hnames
    have hlost : ∀ other, start.mapped other ≠ none → s.world.mapped other = start.mapped other ∨
        other ∈ s.journal.layoutMappings ∨ other ∈ p.resizedNames ∨
        s.world.mapped other = none ∧ other ∈ s.journal.unmappedCows := by
      intro other _
      rw [hworld, World.mapped_without, hr.layout, hsplit]
      split_ifs with hdone
      · exact .inr (.inl (mem_append_left _ hdone))
      · exact .inl rfl
    have hcurrent : s.world.table = start.table := by rw [hworld, World.without]
    rw [rollback_restores_iff start p.batch.suffix hnames (hr.distinct.sublist Plan.resizedNames_sublist)
      (fun _ => hcurrent) hlost, and_iff_right (.inl hcurrent), Plan.Safe, takeWhile_ne_eq hsplit hfresh, hr.layout,
      hr.cows]
    refine forall₂_congr fun other _ => forall_congr' fun hmapped => or_congr_right ?_
    rw [hr.original other, mem_append, mem_singleton]
    simp only [hmapped, ne_eq, not_false_eq_true, and_true, not_mem_nil, or_false]
  | commit =>
    obtain ⟨updated, hupdated, hafter⟩ := h
    cases hwritten : env.written with
    | false =>
      rw [hwritten] at hafter
      exact iff_of_true (hkept ⟨_, hafter⟩) fun hc => absurd (hwritten.symm.trans hc) Bool.noConfusion
    | true =>
      rw [hwritten] at hafter
      rw [hafter.restored_iff_reverts hnamed htable hupdated (by simp) fun _ _ => Iff.rfl]
      exact ⟨fun hr _ => hr, fun hr => hr hwritten⟩
  | mapTarget name =>
    obtain ⟨updated, done, todo, hupdated, hsplit, hafter⟩ := h
    have hfresh : name ∉ done := by
      have hnodup := hafter.distinct.sublist Plan.remap_sublist
      rw [hsplit, nodup_append] at hnodup
      exact fun hdone => hnodup.2.2 name hdone name mem_cons_self rfl
    rw [Plan.Safe, takeWhile_ne_eq hsplit hfresh]
    refine hafter.restored_iff_reverts hnamed htable hupdated (fun other hother => ?_) fun _ _ => Iff.rfl
    exact Plan.remap_sublist.subset (hsplit ▸ mem_append_left _ hother)
  | _ => exact absurd h id

end

section

variable {env : Environment} {batch : Batch} {start : Device}

def plan (env : Environment) (batch : Batch) (table : MetadataBuilder) : Except Reason Plan := do
  let entries ← batch.targets.mapM (select env batch table)
  let builder ← romBuilder batch table (entries.filterMap Selected.image)
  pure ⟨batch, table, entries, builder⟩

def Failed (env : Environment) (batch : Batch) (start : World) (reason : Reason) (s : Flash) : Prop :=
  s = ⟨start, {}⟩ ∧ (∀ p, plan env batch start.table = .ok p → p.Safe env start reason) ∨
    ∃ p, plan env batch start.table = .ok p ∧ p.images ≠ [] ∧ Stopped env p start reason s

variable {table : MetadataBuilder}

theorem plan_eq_ok_iff {p : Plan} : plan env batch table = .ok p ↔ p.batch = batch ∧ p.table = table ∧
      batch.targets.mapM (select env batch table) = .ok p.entries ∧ romBuilder batch table p.images = .ok p.builder := by
  simp only [plan, bind_ok_iff, pure_ok_iff]
  constructor
  · rintro ⟨entries, hentries, builder, hbuilder, rfl⟩
    exact ⟨rfl, rfl, hentries, hbuilder⟩
  · rintro ⟨rfl, rfl, hentries, hbuilder⟩
    exact ⟨p.entries, hentries, p.builder, hbuilder, rfl⟩

theorem select_super {target : String × Nat} {path : String} {part : TWPartition}
    {image : LogicalImageSize} (h : select env batch table target = .ok (.super path part image)) :
    logicalName table batch.suffix part.bare = some image.name := by
  rw [select] at h
  split_ifs at h
  · cases h
  · simp only [bind_ok_iff, ensure_ok_iff, pure_ok_iff, reduceCtorEq, and_false, exists_false] at h
  · simp only [bind_ok_iff, ensure_ok_iff, require_ok_iff] at h
    obtain ⟨part', -, -, -, h⟩ := h
    split_ifs at h
    · simp only [bind_ok_iff, ensure_ok_iff, require_ok_iff, pure_ok_iff, Selected.super.injEq] at h
      obtain ⟨-, -, name, hname, -, rfl, rfl⟩ := h
      exact hname
    · cases h

theorem classify_of_image {target : String × Nat} {e : Selected} {logical : Bool}
    (h : select env batch table target = .ok e) (he : e.image ≠ none)
    (hclass : classify env batch target.1 = .ok logical) : logical = true := by
  by_cases hlogical : isLogicalPath target.1
  · rw [classify, if_pos hlogical] at hclass
    exact (pure_ok_iff.mp hclass).symm
  by_cases hblock : isBlockPath target.1
  · rw [select, if_pos hblock] at h
    obtain rfl := pure_ok_iff.mp h
    exact absurd rfl he
  · rw [select, if_neg hblock, if_neg hlogical] at h
    rw [classify, if_neg hlogical, if_neg hblock] at hclass
    obtain ⟨part, hpart, hclass⟩ := bind_ok_iff.mp hclass
    obtain ⟨part', hpart', h⟩ := bind_ok_iff.mp h
    obtain ⟨-, -, h⟩ := bind_ok_iff.mp h
    obtain rfl := Option.some.inj ((require_ok_iff.mp hpart).symm.trans (require_ok_iff.mp hpart'))
    split_ifs at h hclass
    · exact (pure_ok_iff.mp hclass).symm
    · obtain rfl := pure_ok_iff.mp h
      exact absurd rfl he

theorem plan_named {p : Plan} (h : plan env batch table = .ok p) : p.Named := by
  obtain ⟨rfl, rfl, hentries, -⟩ := plan_eq_ok_iff.mp h
  intro target part image he
  obtain ⟨_, -, hselect⟩ := (mapM_ok_mem hentries).1 _ he
  exact select_super hselect

theorem Plan.safe_of_no_images {p : Plan} (h : p.images = []) (world : World) (target : String) :
    p.Safe env world (.blockDevice target) ∧ p.Safe env world .claim := by
  have hchanged : p.changed = [] := by rw [Plan.changed, h, filter_nil, map_nil]
  have hrevert : p.Reverts world p.remap := .inr (by simp [resizedNames_of_unchanged hchanged])
  exact ⟨hrevert, hrevert⟩

theorem triple_prepareImageFlashTargets :
    Triple (fun s => s = ⟨start.toWorld, {}⟩) (prepareImageFlashTargets env batch)
      (fun _ s => s = ⟨start.toWorld, {}⟩ ∧ (∀ p, plan env batch start.table = .ok p → p.images = []) ∨
        ∃ p, plan env batch start.table = .ok p ∧ p.images ≠ [] ∧ Finished p start.toWorld s)
      (Failed env batch start.toWorld) := by
  refine triple_check (fun _ => triple_get ?_) fun _ s hs => .inl ⟨hs, fun _ _ => trivial⟩
  rintro s rfl
  refine triple_try (fun entries hentries => ?_) fun reason herror s hs => .inl ⟨hs, fun p hp => ?_⟩
  swap
  · rw [plan, herror] at hp
    cases hp
  have hplan : ∀ p, plan env batch start.table = .ok p → p.entries = entries := by
    intro p hp
    obtain ⟨-, -, hentries', -⟩ := plan_eq_ok_iff.mp hp
    exact Except.ok.inj (hentries'.symm.trans hentries)
  by_cases himages : entries.filterMap Selected.image = []
  · have hnone : ∀ p, plan env batch start.table = .ok p → p.images = [] := by
      intro p hp
      rw [Plan.images, hplan p hp, himages]
    rw [prepareImages, if_neg (not_not.mpr himages)]
    refine triple_bind (triple_pure (Q := fun _ s => s = ⟨start.toWorld, {}⟩) fun s hs => hs) fun _ =>
      (triple_forM (I := fun _ s => s = ⟨start.toWorld, {}⟩) fun done e todo hsplit => ?_).mono (fun _ hs => hs)
        (fun _ s hs => .inl ⟨hs, hnone⟩) fun _ _ h => h
    have himage : e.image = none := by
      refine filterMap_eq_nil_iff.mp himages e (hsplit ▸ mem_append_right _ mem_cons_self)
    cases e with
    | device => exact triple_pure fun s hs => hs
    | logical | super => cases himage
    | physical target part =>
      exact triple_demand (fun _ s hs => hs) fun _ s hs =>
        .inl ⟨hs, fun p hp => (Plan.safe_of_no_images (hnone p hp) start.toWorld target).1⟩
  · rw [prepareImages, if_pos himages, bind_assoc]
    refine triple_check (fun _ => ?_) fun _ s hs => .inl ⟨hs, fun _ _ => trivial⟩
    rw [bind_assoc]
    refine triple_try (fun builder hbuilder => ?_) fun reason herror s hs => .inl ⟨hs, fun p hp => ?_⟩
    swap
    · obtain ⟨-, -, -, hrom⟩ := plan_eq_ok_iff.mp hp
      rw [Plan.images, hplan p hp, herror] at hrom
      cases hrom
    · have hp : plan env batch start.table = .ok ⟨batch, start.table, entries, builder⟩ :=
        plan_eq_ok_iff.mpr ⟨rfl, rfl, hentries, hbuilder⟩
      refine triple_bind ((triple_prepareLogical env).mono (fun _ hs => hs) (fun _ _ h => h) fun reason s h =>
        .inr ⟨_, hp, himages, h⟩) fun _ => (triple_finishTargets env).mono (fun _ hs => hs)
          (fun _ s hs => .inr ⟨_, hp, himages, hs⟩) fun reason s h => .inr ⟨_, hp, himages, h⟩

theorem triple_prepareAndClaim :
    Triple (fun s => s = ⟨start.toWorld, {}⟩) (prepareAndClaim env batch) (fun _ _ => True)
      (Failed env batch start.toWorld) := by
  refine triple_bind triple_prepareImageFlashTargets fun _ => triple_demand (fun _ _ _ => trivial) fun _ s hs => ?_
  rcases hs with ⟨hs, hnone⟩ | ⟨p, hp, himages, hfinished⟩
  · exact .inl ⟨hs, fun p hp => (Plan.safe_of_no_images (hnone p hp) start.toWorld "").2⟩
  · exact .inr ⟨p, hp, himages, hfinished⟩

theorem errors_classify (target : String) : Errors (· = .unresolved target) (classify env batch target) := by
  unfold classify
  split_ifs
  · exact errors_pure
  · exact errors_bind (errors_ensure rfl) fun _ _ => errors_pure
  · refine errors_bind (errors_require rfl) fun part _ => ?_
    split_ifs
    · exact errors_pure
    · exact errors_bind (errors_ensure rfl) fun _ _ => errors_pure

/-- A batch that fails before its writer starts leaves the table and every mapping as they were, exactly when it
fails where the rollback is safe. -/
theorem runImageFlashBatch_restored_iff (env : Environment) (batch : Batch) (start : Device) (reason : Reason)
    (h : (runImageFlashBatch env batch start.toWorld).failed = some reason) :
    Restored start.toWorld (runImageFlashBatch env batch start.toWorld).world ↔
      ∀ p, plan env batch start.table = .ok p → p.Safe env start.toWorld reason := by
  have hself : Restored start.toWorld start.toWorld := by
    refine ⟨rfl, fun name hname => ?_⟩
    obtain ⟨table, htable⟩ := Option.ne_none_iff_exists'.mp hname
    exact htable.trans (congrArg some (start.consistent name table htable).1)
  rw [runImageFlashBatch] at h ⊢
  cases hclass : batch.targets.mapM fun target => classify env batch target.1 with
  | error reason' =>
    rw [hclass] at h
    obtain ⟨target, -, htarget⟩ := mapM_error_mem hclass
    obtain rfl : reason' = reason := Option.some.inj h
    rw [errors_classify target.1 _ htarget]
    exact iff_of_true hself fun _ _ => trivial
  | ok logical =>
    simp only [hclass] at h ⊢
    by_cases hquiesces : (!env.quiesces) = true
    · rw [if_pos hquiesces] at h ⊢
      obtain rfl := Option.some.inj h
      exact iff_of_true hself fun _ _ => trivial
    by_cases hcheckpoint : (logical.any id && !env.checkpoints) = true
    · rw [if_neg hquiesces, if_pos hcheckpoint] at h ⊢
      obtain rfl := Option.some.inj h
      exact iff_of_true hself fun _ _ => trivial
    rw [if_neg hquiesces, if_neg hcheckpoint] at h ⊢
    rcases hrun : (prepareAndClaim env batch).start ⟨start.toWorld, {}⟩ with ⟨reason' | _, s⟩
    · rw [hrun] at h
      have hreason : reason' = reason := by
        split_ifs at h <;> exact Option.some.inj h
      subst hreason
      rcases triple_prepareAndClaim.error rfl hrun with ⟨rfl, hsafe⟩ | ⟨p, hp, himages, hstopped⟩
      · refine iff_of_true ?_ hsafe
        split_ifs <;> exact hself
      · obtain ⟨hbatch, htable, hentries, -⟩ := plan_eq_ok_iff.mp hp
        obtain ⟨image, himage⟩ := exists_mem_of_ne_nil _ himages
        obtain ⟨e, he, hsome⟩ := mem_filterMap.mp himage
        obtain ⟨target, htarget, hselect⟩ := (mapM_ok_mem hentries).1 e he
        obtain ⟨flag, hflag, htrue⟩ := (mapM_ok_mem hclass).2 target htarget
        have hany : logical.any id = true :=
          any_eq_true.mpr ⟨flag, hflag, classify_of_image hselect (hsome ▸ Option.some_ne_none _) htrue⟩
        simp only [hany, if_true]
        rw [← hbatch, stopped_restored_iff hstopped (plan_named hp) htable]
        constructor
        · intro hsafe p' hp'
          rw [hbatch] at hp'
          exact Except.ok.inj (hp.symm.trans hp') ▸ hsafe
        · intro hsafe
          exact hsafe p (hbatch ▸ hp)
    · rw [hrun] at h
      cases h

end

section

def systemTable : MetadataBuilder where
  partitions := [⟨"system_a", "main_a", 1024, 1⟩, ⟨"vendor_a", "main_a", 512, 1⟩]
  groups := [⟨"main_a", 4096⟩]
  blockSize := 512
  capacity := 8192
  unique := by decide
  uniqueGroups := by decide
  grouped := by decide
  blockSize_pos := sector_pos
  aligned := by decide

def systemDevice : Device where
  table := systemTable
  mapped name := if name ∈ systemTable.partitions.map Partition.name then some systemTable else none
  consistent name table h := by
    obtain ⟨hin, htable⟩ := Option.ite_none_right_eq_some.mp h
    exact ⟨(Option.some.inj htable).symm, hin⟩

def shrinkSystem : Batch where
  targets := [("/system_root", 512)]
  suffix := "_a"
  findPartitionByPath path := if path = "/system_root" then some ⟨"/system_root", true⟩ else none
  layout := none

def willing : Environment where
  resolves _ := true
  quiesces := true
  checkpoints := true
  reads := true
  readsBatch := true
  accepts _ _ := true
  idle := true
  exports := true
  destroys _ := true
  idleAgain := true
  commits := true
  written := false
  maps _ := true
  hasBlock _ := true
  claims := true

theorem snapshotsChanged_restored : Restored systemDevice.toWorld
      (runImageFlashBatch { willing with idleAgain := false } shrinkSystem systemDevice.toWorld).world :=
  (runImageFlashBatch_restored_iff _ _ _ .snapshotsChanged (by decide)).mpr fun _ _ => trivial

/-- When the resized target cannot be mapped after the commit, the rollback fails to release it and leaves the new
table in place. -/
theorem mapTarget_not_restored :
    (runImageFlashBatch { willing with maps := fun _ => false } shrinkSystem systemDevice.toWorld).failed =
        some (.mapTarget "system_a") ∧ systemDevice.mapped "system_a" = some systemDevice.table ∧
      ¬ Restored systemDevice.toWorld
        (runImageFlashBatch { willing with maps := fun _ => false } shrinkSystem systemDevice.toWorld).world := by
  refine ⟨by decide, rfl, fun h => ?_⟩
  exact absurd (congrArg MetadataBuilder.partitions h.1) (by decide)

end

end AeraRecovery.Super
