import AeraRecovery.FlashMounts.Table

namespace AeraRecovery.FlashMounts

open Lib Bytes List

def belowMount (path parent : Bytes) : Bool :=
  path = parent ||
    (parent.length < path.length && path.take parent.length = parent && path.getD parent.length 0 = 47)

/-- Any sort that the comparison by length allows: mounts with targets of one length may come in any order. -/
structure LengthSort where
  sort : List FlashMount → List FlashMount
  perm : ∀ l, (sort l).Perm l
  ordered : ∀ l, (sort l).Pairwise fun a b => ¬ a.target.length < b.target.length

def LengthSort.insertion : LengthSort where
  sort := insertionSort fun a b => b.target.length ≤ a.target.length
  perm := perm_insertionSort _
  ordered l := (pairwise_insertionSort (fun a b : FlashMount => b.target.length ≤ a.target.length) l).imp
    not_lt.mpr

structure Plan where
  ok : Bool
  selected : List FlashMount
  error : Bytes

def within (roots : List Bytes) (m : FlashMount) : Bool := roots.any (belowMount m.target)

/-- The loop over all mounts. `none` beside a list is success, a target is that of the mount at which it stops. -/
def select (roots : List Bytes) : List FlashMount → List Bytes → List FlashMount → List FlashMount × Option Bytes
  | [], _, selected => (selected, none)
  | m :: all, paths, selected =>
    if !within roots m then select roots all paths selected
    else if m.target = ascii "/" ∨ m.propagation = 0 ∨ m.target ∈ paths then (selected, some m.target)
    else select roots all (m.target :: paths) (selected ++ [m])

variable (all : List FlashMount) (devices : List UInt64)

def flashedRoots : List Bytes :=
  (all.filter (devices.contains ·.device)).map FlashMount.target

def planFlashMounts (sort : LengthSort) (all : List FlashMount) (devices : List UInt64) (error : Bytes) : Plan :=
  match select (flashedRoots all devices) all [] [] with
  | (selected, some target) => ⟨false, selected, ascii "Cannot safely release stacked/root/shared-slave mount " ++ target⟩
  | (selected, none) => ⟨true, sort.sort selected, error⟩

def AtOrBelow (path parent : Bytes) : Prop := parent = ascii "/" ∨ path = parent ∨ parent ++ ascii "/" <+: path

def StrictlyBelow (path parent : Bytes) : Prop := AtOrBelow path parent ∧ path ≠ parent

def Qualifies (m : FlashMount) : Prop :=
  m ∈ all ∧ ∃ base ∈ all, base.device ∈ devices ∧ AtOrBelow m.target base.target

variable {path parent : Bytes}

theorem belowMount_iff : belowMount path parent = true ↔ path = parent ∨ parent ++ ascii "/" <+: path := by
  simp only [belowMount, Bool.or_eq_true, Bool.and_eq_true, decide_eq_true_eq]
  refine or_congr_right ⟨?_, ?_⟩
  · rintro ⟨⟨hlength, htake⟩, hslash⟩
    refine ⟨path.drop (parent.length + 1), ?_⟩
    have hget : path.getD parent.length 0 = path[parent.length] := by rw [getD, getElem?_eq_getElem hlength]; rfl
    rw [append_assoc]
    conv_rhs => rw [← take_append_drop parent.length path, htake, drop_eq_getElem_cons hlength, ← hget, hslash]
    rfl
  · rintro ⟨rest, rfl⟩
    simp [ascii]

theorem AtOrBelow.belowMount (h : AtOrBelow path parent) (hroot : parent ≠ ascii "/") :
    belowMount path parent = true :=
  belowMount_iff.mpr (h.resolve_left hroot)

theorem atOrBelow_of_belowMount (h : belowMount path parent = true) : AtOrBelow path parent :=
  .inr (belowMount_iff.mp h)

theorem StrictlyBelow.length_lt (h : StrictlyBelow path parent) (hroot : parent ≠ ascii "/") :
    parent.length < path.length := by
  rcases h.1.resolve_left hroot with heq | hpre
  · exact absurd heq h.2
  · have := hpre.length_le
    rw [length_append] at this
    exact this

section

variable {roots : List Bytes} {all : List FlashMount} {paths : List Bytes} {selected : List FlashMount}

structure Releasable (roots : List Bytes) (all : List FlashMount) (paths : List Bytes) : Prop where
  notRoot : ∀ m ∈ all, within roots m = true → m.target ≠ ascii "/"
  known : ∀ m ∈ all, within roots m = true → m.propagation ≠ 0
  fresh : ∀ m ∈ all, within roots m = true → m.target ∉ paths
  once : ((all.filter (within roots)).map FlashMount.target).Nodup

theorem releasable_skip {m : FlashMount} (h : ¬ within roots m = true) :
    Releasable roots (m :: all) paths ↔ Releasable roots all paths := by
  constructor
  · rintro ⟨hroot, hknown, hfresh, honce⟩
    rw [forall_mem_cons] at hroot hknown hfresh
    rw [filter_cons_of_neg h] at honce
    exact ⟨hroot.2, hknown.2, hfresh.2, honce⟩
  · rintro ⟨hroot, hknown, hfresh, honce⟩
    refine ⟨forall_mem_cons.mpr ⟨fun hm => absurd hm h, hroot⟩, forall_mem_cons.mpr ⟨fun hm => absurd hm h, hknown⟩,
      forall_mem_cons.mpr ⟨fun hm => absurd hm h, hfresh⟩, ?_⟩
    rwa [filter_cons_of_neg h]

theorem releasable_cons {m : FlashMount} (h : within roots m = true) : Releasable roots (m :: all) paths ↔
      ¬ (m.target = ascii "/" ∨ m.propagation = 0 ∨ m.target ∈ paths) ∧ Releasable roots all (m.target :: paths) := by
  have hmem : m.target ∉ ((all.filter (within roots)).map FlashMount.target) ↔
      ∀ x ∈ all, within roots x = true → x.target ≠ m.target := by
    simp only [mem_map, mem_filter, not_exists, not_and, and_imp, ne_eq]
  constructor
  · rintro ⟨hroot, hknown, hfresh, honce⟩
    rw [forall_mem_cons] at hroot hknown hfresh
    rw [filter_cons_of_pos h, map_cons, nodup_cons, hmem] at honce
    refine ⟨not_or.mpr ⟨hroot.1 h, not_or.mpr ⟨hknown.1 h, hfresh.1 h⟩⟩, hroot.2, hknown.2, ?_, honce.2⟩
    intro x hx hbelow
    exact not_mem_cons_of_ne_of_not_mem (honce.1 x hx hbelow) (hfresh.2 x hx hbelow)
  · rintro ⟨hm, hroot, hknown, hfresh, honce⟩
    simp only [not_or] at hm
    refine ⟨forall_mem_cons.mpr ⟨fun _ => hm.1, hroot⟩, forall_mem_cons.mpr ⟨fun _ => hm.2.1, hknown⟩,
      forall_mem_cons.mpr ⟨fun _ => hm.2.2, fun x hx hbelow => ?_⟩, ?_⟩
    · exact fun hpaths => hfresh x hx hbelow (mem_cons_of_mem _ hpaths)
    · rw [filter_cons_of_pos h, map_cons, nodup_cons, hmem]
      exact ⟨fun x hx hbelow heq => hfresh x hx hbelow (heq ▸ mem_cons_self), honce⟩

theorem select_eq_none {out : List FlashMount} : select roots all paths selected = (out, none) ↔
      Releasable roots all paths ∧ out = selected ++ all.filter (within roots) := by
  induction all generalizing paths selected with
  | nil =>
    rw [select, filter_nil, append_nil, Prod.mk.injEq, and_iff_left rfl, eq_comm, iff_and_self]
    exact fun _ => ⟨nofun, nofun, nofun, nodup_nil⟩
  | cons m all ih =>
    by_cases hm : within roots m = true
    · rw [select, if_neg (by rw [hm]; exact Bool.false_ne_true), releasable_cons hm, filter_cons_of_pos hm]
      split_ifs with hbad
      · exact iff_of_false nofun fun h => h.1.1 hbad
      · rw [ih, and_iff_right hbad, append_assoc, singleton_append]
    · rw [select, if_pos (by rw [Bool.not_eq_true] at hm; rw [hm]; rfl), releasable_skip hm, filter_cons_of_neg hm, ih]

end

structure Releases (all : List FlashMount) (devices : List UInt64) (selected : List FlashMount) : Prop where
  exact : ∀ m, m ∈ selected ↔ Qualifies all devices m
  once : (selected.map FlashMount.target).Nodup
  safe : ∀ m ∈ selected, m.target ≠ ascii "/" ∧ m.propagation ≠ 0
  order : ∀ (i j : Nat) (a b : FlashMount), selected[i]? = some a → selected[j]? = some b →
    StrictlyBelow a.target b.target → i < j

def Stacked : Prop :=
  ∃ (i j : Nat) (a b : FlashMount), i < j ∧ all[i]? = some a ∧ all[j]? = some b ∧ Qualifies all devices a ∧
    Qualifies all devices b ∧ a.target = b.target

section

variable {all : List FlashMount} {devices : List UInt64} {m : FlashMount}

theorem qualifies_of_within (hm : m ∈ all) (h : within (flashedRoots all devices) m = true) :
    Qualifies all devices m := by
  obtain ⟨target, htarget, hbelow⟩ := any_eq_true.mp h
  obtain ⟨base, hbase, rfl⟩ := mem_map.mp htarget
  rw [mem_filter, contains_iff_mem] at hbase
  exact ⟨hm, base, hbase.1, hbase.2, atOrBelow_of_belowMount hbelow⟩

theorem Qualifies.within (h : Qualifies all devices m) (hok : Releasable (flashedRoots all devices) all []) :
    within (flashedRoots all devices) m = true := by
  obtain ⟨-, base, hbase, hdevice, hbelow⟩ := h
  have hroot : base.target ∈ flashedRoots all devices :=
    mem_map_of_mem (mem_filter.mpr ⟨hbase, contains_iff_mem.mpr hdevice⟩)
  have hself : FlashMounts.within (flashedRoots all devices) base = true :=
    any_eq_true.mpr ⟨_, hroot, belowMount_iff.mpr (.inl rfl)⟩
  exact any_eq_true.mpr ⟨_, hroot, hbelow.belowMount (hok.notRoot base hbase hself)⟩

theorem planFlashMounts_ok {sort : LengthSort} {error : Bytes} (h : (planFlashMounts sort all devices error).ok = true) :
    Releasable (flashedRoots all devices) all [] ∧
      (planFlashMounts sort all devices error).selected = sort.sort (all.filter (within (flashedRoots all devices))) := by
  rw [planFlashMounts] at h ⊢
  split at h
  · cases h
  · rename_i selected hselect
    obtain ⟨hok, rfl⟩ := select_eq_none.mp hselect
    exact ⟨hok, rfl⟩

theorem releases_of_releasable (sort : LengthSort) (hok : Releasable (flashedRoots all devices) all []) :
    Releases all devices (sort.sort (all.filter (within (flashedRoots all devices)))) := by
  have hmem : ∀ m, m ∈ sort.sort (all.filter (within (flashedRoots all devices))) ↔
      m ∈ all ∧ within (flashedRoots all devices) m = true := fun m =>
    (sort.perm _).mem_iff.trans mem_filter
  have hsafe : ∀ m ∈ sort.sort (all.filter (within (flashedRoots all devices))),
      m.target ≠ ascii "/" ∧ m.propagation ≠ 0 := by
    intro m hm
    obtain ⟨hm, hbelow⟩ := (hmem m).mp hm
    exact ⟨hok.notRoot m hm hbelow, hok.known m hm hbelow⟩
  refine ⟨fun m => ?_, ((sort.perm _).map _).nodup_iff.mpr hok.once, hsafe, ?_⟩
  · rw [hmem]
    exact ⟨fun h => qualifies_of_within h.1 h.2, fun h => ⟨h.1, h.within hok⟩⟩
  · intro i j a b hi hj hbelow
    have hlength := hbelow.length_lt (hsafe b (mem_of_getElem? hj)).1
    by_contra hle
    rcases lt_or_eq_of_le (Nat.le_of_not_lt hle) with hji | rfl
    · obtain ⟨hi', rfl⟩ := List.getElem?_eq_some_iff.mp hi
      obtain ⟨hj', rfl⟩ := List.getElem?_eq_some_iff.mp hj
      exact pairwise_iff_getElem.mp (sort.ordered _) j i hj' hi' hji hlength
    · cases hi.symm.trans hj
      exact hbelow.2 rfl

theorem not_stacked (hok : Releasable (flashedRoots all devices) all []) : ¬ Stacked all devices := by
  rintro ⟨i, j, a, b, hij, hi, hj, ha, hb, htarget⟩
  have honce := hok.once
  have hawithin := ha.within hok
  have hbwithin := hb.within hok
  generalize flashedRoots all devices = roots at honce hawithin hbwithin
  rw [← take_append_drop j all, filter_append, map_append, nodup_append] at honce
  have hfirst : a ∈ all.take j := mem_of_getElem? (i := i) (by rw [getElem?_take_of_lt hij, hi])
  have hsecond : b ∈ all.drop j := mem_of_getElem? (i := 0) (by rw [getElem?_drop, add_zero, hj])
  refine honce.2.2 a.target ?_ b.target ?_ htarget
  · exact mem_map_of_mem (mem_filter.mpr ⟨hfirst, hawithin⟩)
  · exact mem_map_of_mem (mem_filter.mpr ⟨hsecond, hbwithin⟩)

end

/-- A plan releases exactly what lies at or below a flashed mount, the deeper targets first, and there is none if one of
these mounts cannot be restored. -/
theorem planFlashMounts_correct (sort : LengthSort) (all : List FlashMount) (devices : List UInt64) (error : Bytes) :
    ((planFlashMounts sort all devices error).ok = true →
      Releases all devices (planFlashMounts sort all devices error).selected) ∧
    ((∃ m, Qualifies all devices m ∧ (m.target = ascii "/" ∨ m.propagation = 0)) ∨ Stacked all devices →
      (planFlashMounts sort all devices error).ok = false) := by
  constructor
  · intro h
    obtain ⟨hok, hselected⟩ := planFlashMounts_ok h
    exact hselected ▸ releases_of_releasable sort hok
  · intro hbad
    refine Bool.eq_false_iff.mpr fun h => ?_
    obtain ⟨hok, -⟩ := planFlashMounts_ok h
    rcases hbad with ⟨m, hm, hroot | hslave⟩ | hstacked
    · exact hok.notRoot m hm.1 (hm.within hok) hroot
    · exact hok.known m hm.1 (hm.within hok) hslave
    · exact not_stacked hok hstacked

/-- An alias below a flashed mount goes first, whatever device it is on. -/
example :
    let m : FlashMount := ⟨1, ascii "/", ascii "/vendor", [], [], [], [], msPrivate⟩
    let bind : FlashMount := ⟨2, ascii "/", ascii "/vendor/dsp", [], [], [], [], msShared⟩
    (planFlashMounts .insertion [m, bind] [1] []).selected = [bind, m] := by
  decide +kernel

end AeraRecovery.FlashMounts
