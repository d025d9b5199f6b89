import AeraRecovery.Lib.Steps
import AeraRecovery.PluginApi.Activity

namespace AeraRecovery.PluginApi

open Lib Bytes Checks Steps List Function

def resolve (path : Bytes) : List Bytes :=
  (path.splitOn 47).foldl (fun done part =>
    if part = [] ∨ part = ascii "." then done else if part = ascii ".." then done.dropLast else done ++ [part]) []

def InTmp (path : Bytes) : Prop := [ascii "tmp"] <+: resolve path

instance (path : Bytes) : Decidable (InTmp path) := inferInstanceAs (Decidable ([ascii "tmp"] <+: resolve path))

def Keyed (activities : Activities) : Prop := (activities.map Activity.plugin).Nodup

section

variable {activities : Activities} {a b : Activity}

theorem Keyed.eq (h : Keyed activities) (ha : a ∈ activities) (hb : b ∈ activities) (hab : a.plugin = b.plugin) : a = b :=
  inj_on_of_nodup_map h ha hb hab

theorem find_eq_some {plugin : Bytes} (h : activities.find plugin = some a) : a ∈ activities ∧ a.plugin = plugin := by
  have hplugin := find?_some (p := fun a : Activity => decide (a.plugin = plugin)) h
  exact ⟨mem_of_find?_eq_some h, of_decide_eq_true hplugin⟩

theorem Keyed.find (h : Keyed activities) (ha : a ∈ activities) : activities.find a.plugin = some a := by
  cases hfind : activities.find a.plugin with
  | none => exact absurd (find?_eq_none.mp hfind a ha) (by simp)
  | some b =>
    obtain ⟨hb, hplugin⟩ := find_eq_some hfind
    rw [h.eq hb ha hplugin]

variable {next : Activity}

theorem mem_put (h : a ∈ activities.put next) : a = next ∨ a ∈ activities := by
  rw [Activities.put] at h
  split_ifs at h
  · obtain ⟨b, hb, rfl⟩ := mem_map.mp h
    split_ifs
    · exact .inl rfl
    · exact .inr hb
  · exact (mem_append.mp h).symm.imp_left mem_singleton.mp

theorem map_plugin_put (h : (activities.find next.plugin).isSome) :
    (activities.put next).map Activity.plugin = activities.map Activity.plugin := by
  rw [Activities.put, if_pos h, map_map]
  refine map_congr_left fun a _ => ?_
  rw [comp_apply]
  split_ifs with heq
  · exact heq.symm
  · rfl

theorem Keyed.put (h : Keyed activities) (next : Activity) : Keyed (activities.put next) := by
  by_cases hfind : (activities.find next.plugin).isSome
  · rw [Keyed, map_plugin_put hfind]
    exact h
  · rw [Activities.put, if_neg hfind, Keyed, map_append, map_singleton, nodup_append]
    refine ⟨h, nodup_singleton _, ?_⟩
    intro p hp q hq heq
    obtain ⟨b, hb, rfl⟩ := mem_map.mp hp
    rw [mem_singleton] at hq
    rw [Option.not_isSome_iff_eq_none] at hfind
    exact absurd (find?_eq_none.mp hfind b hb) (by simp [heq, hq])

theorem length_put_of_find (h : (activities.find next.plugin).isSome) :
    (activities.put next).length = activities.length := by
  rw [Activities.put, if_pos h, length_map]

theorem length_put_le (activities : Activities) (next : Activity) : (activities.put next).length ≤ activities.length + 1 := by
  rw [Activities.put]
  split_ifs
  · rw [length_map]
    exact Nat.le_succ _
  · rw [length_append, length_singleton]

end

/-- Every entry goes back to one of the same plugin, task, storage and state. -/
def Derived (old new : Activities) : Prop :=
  ∀ a ∈ new, ∃ b ∈ old, b.plugin = a.plugin ∧ b.id = a.id ∧ b.storage = a.storage ∧ b.flags = a.flags

inductive ActivityStep (s : StorageState) : StorageCall → Activities → Prop
  | derived {call : StorageCall} {new : Activities} (hderived : Derived s.activities new)
      (hkeys : (new.map Activity.plugin).Sublist (s.activities.map Activity.plugin)) : ActivityStep s call new
  | set {plugin name storage : Bytes} {message : Message} {now : Nat} (next : Activity)
      (hplugin : next.plugin = plugin) (hstorage : next.storage = storage) (hid : next.id = message.requestId)
      (hfound : ∀ a ∈ s.activities.find plugin, a.active = true → a.id = next.id ∧ a.storage = next.storage)
      (hlease : s.lease = true → usesStorage next = false)
      (hsize : (s.activities.find plugin).isSome = true ∨ s.activities.length < 8) :
      ActivityStep s (.setActivity plugin name storage message now) (s.activities.put next)

theorem derived_of_sublist {old new : Activities} (h : new.Sublist old) : Derived old new :=
  fun a ha => ⟨a, h.subset ha, rfl, rfl, rfl, rfl⟩

theorem activities_construct (s : StorageState) (object thread : Nat) :
    (s.construct object thread).activities = s.activities := by
  rw [StorageState.construct]
  split_ifs <;> rfl

theorem activities_destroy (s : StorageState) (lease : Lease) : (s.destroy lease).activities = s.activities := by
  rw [StorageState.destroy]
  dsimp only
  split_ifs <;> rfl

variable {s : StorageState}

theorem step_activities {s' : StorageState} {call : StorageCall} (h : storageStep s call = some s') :
    ActivityStep s call s'.activities := by
  have hsame : ∀ call, ActivityStep s call s.activities :=
    fun _ => .derived (derived_of_sublist (Sublist.refl _)) (Sublist.refl _)
  have hsublist : ∀ call {new : Activities}, new.Sublist s.activities → ActivityStep s call new :=
    fun _ _ h => .derived (derived_of_sublist h) (h.map _)
  cases call with
  | setActivity plugin name storage message now =>
    cases h
    cases hset : setActivity s.activities s.lease plugin name storage message now with
    | error e => exact hsame _
    | ok new =>
      simp only [setActivity, bind_ok_iff, ensure_ok_iff, pure_ok_iff] at hset
      obtain ⟨_, -, _, hfound, _, hlease, _, hsize, rfl⟩ := hset
      refine .set _ rfl rfl rfl (fun a ha hactive => ?_) (fun hheld => ?_) ?_
      · rw [Option.mem_def.mp ha] at hfound
        have hboth : a.id = message.requestId ∧ a.storage = storage := by simpa [hactive] using hfound
        exact hboth
      · simpa [hheld] using hlease
      · simpa using hsize
  | setActivityFile plugin id path regular root file =>
    cases h
    cases hset : setActivityFile s.activities plugin id path regular root file with
    | error e => exact hsame _
    | ok new =>
      simp only [setActivityFile, bind_ok_iff, ensure_ok_iff, require_ok_iff, pure_ok_iff] at hset
      obtain ⟨_, -, a, hfound, _, -, _, -, rfl⟩ := hset
      obtain ⟨hmem, rfl⟩ := find_eq_some hfound
      refine .derived (fun b hb => ?_) ?_
      · rcases mem_put hb with rfl | hb
        · exact ⟨a, hmem, rfl, rfl, rfl, rfl⟩
        · exact ⟨b, hb, rfl, rfl, rfl, rfl⟩
      · change ((s.activities.put { a with resultFile := path }).map Activity.plugin).Sublist _
        rw [map_plugin_put (by rw [hfound]; rfl)]
  | activities now | removeActivity plugin =>
    cases h
    exact hsublist _ filter_sublist
  | markActivityCancelling plugin =>
    cases h
    have hkeys : (s.activities.map fun a => if a.plugin = plugin then { a with cancelling := true } else a).map
        Activity.plugin = s.activities.map Activity.plugin := by
      rw [map_map]
      refine map_congr_left fun a _ => ?_
      rw [comp_apply]
      split_ifs
      · rfl
      · rfl
    refine .derived (fun b hb => ?_) ?_
    · obtain ⟨a, ha, rfl⟩ := mem_map.mp hb
      refine ⟨a, ha, ?_⟩
      split_ifs
      · exact ⟨rfl, rfl, rfl, rfl⟩
      · exact ⟨rfl, rfl, rfl, rfl⟩
    · dsimp only
      rw [hkeys]
  | construct object thread =>
    obtain ⟨-, h⟩ := Option.ite_none_right_eq_some.mp h
    rw [← Option.some.inj h, activities_construct]
    exact hsame _
  | destroy lease =>
    obtain ⟨-, h⟩ := Option.ite_none_right_eq_some.mp h
    rw [← Option.some.inj h, activities_destroy]
    exact hsame _

def acquiredBy (thread : Nat) (l : Lease) : Bool := l.acquired && l.thread = thread

structure LeaseInv (s : StorageState) : Prop where
  depth : ∀ t, s.depth t = s.leases.countP (acquiredBy t)
  held : s.lease = true ↔ ∃ l ∈ s.leases, l.acquired = true
  single : ∀ l ∈ s.leases, ∀ l' ∈ s.leases, l.acquired = true → l'.acquired = true → l.thread = l'.thread
  distinct : (s.leases.map Lease.object).Nodup

theorem LeaseInv.depth_ne_zero (h : LeaseInv s) {t : Nat} :
    s.depth t ≠ 0 ↔ ∃ l ∈ s.leases, l.acquired = true ∧ l.thread = t := by
  rw [h.depth, ← pos_iff_ne_zero, countP_pos_iff]
  simp [acquiredBy]

theorem LeaseInv.construct (h : LeaseInv s) {object thread : Nat}
    (hnew : object ∉ s.leases.map Lease.object) : LeaseInv (s.construct object thread) := by
  have hdistinct : ∀ acquired, ((⟨object, thread, acquired⟩ :: s.leases).map Lease.object).Nodup := by
    intro acquired
    rw [map_cons, nodup_cons]
    exact ⟨hnew, h.distinct⟩
  have hdepth : ∀ t, update s.depth thread (s.depth thread + 1) t =
      (⟨object, thread, true⟩ :: s.leases).countP (acquiredBy t) := by
    intro t
    by_cases ht : t = thread
    · rw [ht, update_self, h.depth, countP_cons_of_pos (by simp [acquiredBy])]
    · rw [update_of_ne ht, h.depth, countP_cons_of_neg (by simp [acquiredBy, Ne.symm ht])]
  rw [StorageState.construct]
  split_ifs with hnested hbusy
  · obtain ⟨outer, houter, hacquired, hthread⟩ := h.depth_ne_zero.mp hnested
    have hall : ∀ l ∈ ⟨object, thread, true⟩ :: s.leases, l.acquired = true → l.thread = thread := by
      intro l hl hl'
      rcases mem_cons.mp hl with rfl | hl
      · rfl
      · rw [h.single l hl outer houter hl' hacquired, hthread]
    refine ⟨hdepth, iff_of_true (h.held.mpr ⟨outer, houter, hacquired⟩) ⟨_, mem_cons_self, rfl⟩, ?_, hdistinct true⟩
    intro l hl l' hl' hacq hacq'
    rw [hall l hl hacq, hall l' hl' hacq']
  · refine ⟨fun t => ?_, ?_, ?_, hdistinct false⟩
    · rw [countP_cons_of_neg (by simp [acquiredBy])]
      exact h.depth t
    · rw [h.held]
      simp
    · simpa using h.single
  · simp only [Bool.or_eq_true, not_or] at hbusy
    have hnone : ∀ l ∈ s.leases, l.acquired ≠ true := fun l hl hl' => hbusy.1 (h.held.mpr ⟨l, hl, hl'⟩)
    have hall : ∀ l ∈ ⟨object, thread, true⟩ :: s.leases, l.acquired = true → l = ⟨object, thread, true⟩ :=
      fun l hl hl' => (mem_cons.mp hl).resolve_right fun hold => hnone l hold hl'
    rw [not_not.mp hnested] at hdepth
    refine ⟨hdepth, iff_of_true rfl ⟨_, mem_cons_self, rfl⟩, ?_, hdistinct true⟩
    intro l hl l' hl' hacq hacq'
    rw [hall l hl hacq, hall l' hl' hacq']

theorem LeaseInv.destroy (h : LeaseInv s) {lease : Lease} (hmem : lease ∈ s.leases) : LeaseInv (s.destroy lease) := by
  have hperm := perm_cons_erase hmem
  have hsub : ∀ l ∈ s.leases.erase lease, l ∈ s.leases := fun _ => mem_of_mem_erase
  have hsingle : ∀ l ∈ s.leases.erase lease, ∀ l' ∈ s.leases.erase lease, l.acquired = true → l'.acquired = true →
      l.thread = l'.thread := fun l hl l' hl' => h.single l (hsub l hl) l' (hsub l' hl')
  have hdistinct : ((s.leases.erase lease).map Lease.object).Nodup :=
    h.distinct.sublist (erase_sublist.map _)
  have hcount : ∀ t, s.depth t = (lease :: s.leases.erase lease).countP (acquiredBy t) :=
    fun t => (h.depth t).trans (hperm.countP_eq _)
  rw [StorageState.destroy]
  dsimp only
  by_cases hacquired : lease.acquired = true
  · rw [if_pos hacquired]
    have hdepth : ∀ t, update s.depth lease.thread (s.depth lease.thread - 1) t =
        (s.leases.erase lease).countP (acquiredBy t) := by
      intro t
      by_cases ht : t = lease.thread
      · rw [ht, update_self, hcount, countP_cons_of_pos (by simp [acquiredBy, hacquired]), Nat.add_sub_cancel]
      · rw [update_of_ne ht, hcount, countP_cons_of_neg (by simp [acquiredBy, Ne.symm ht])]
    have hrest : s.depth lease.thread - 1 ≠ 0 ↔ ∃ l ∈ s.leases.erase lease, l.acquired = true := by
      have hown := hdepth lease.thread
      rw [update_self] at hown
      rw [hown, ← pos_iff_ne_zero, countP_pos_iff]
      constructor
      · rintro ⟨l, hl, hl'⟩
        exact ⟨l, hl, (Bool.and_eq_true_iff.mp hl').1⟩
      · rintro ⟨l, hl, hl'⟩
        refine ⟨l, hl, ?_⟩
        simp [acquiredBy, hl', h.single l (hsub l hl) lease hmem hl' hacquired]
    split_ifs with hlast
    · exact ⟨hdepth, iff_of_true (h.held.mpr ⟨lease, hmem, hacquired⟩) (hrest.mp hlast), hsingle, hdistinct⟩
    · exact ⟨hdepth, iff_of_false nofun (mt hrest.mpr hlast), hsingle, hdistinct⟩
  · rw [if_neg hacquired]
    refine ⟨fun t => ?_, ?_, hsingle, hdistinct⟩
    · rw [hcount, countP_cons_of_neg (by simp [acquiredBy, hacquired])]
    · rw [h.held]
      constructor
      · rintro ⟨l, hl, hl'⟩
        refine ⟨l, (mem_cons.mp (hperm.mem_iff.mp hl)).resolve_left ?_, hl'⟩
        rintro rfl
        exact hacquired hl'
      · rintro ⟨l, hl, hl'⟩
        exact ⟨l, hsub l hl, hl'⟩

structure StorageInv (s : StorageState) : Prop where
  keyed : Keyed s.activities
  few : s.activities.length ≤ 8
  leases : LeaseInv s
  apart : s.lease = true → ∀ a ∈ s.activities, usesStorage a = false

theorem usesStorage_congr {a b : Activity} (hflags : a.flags = b.flags) (hstorage : a.storage = b.storage) :
    usesStorage a = usesStorage b := by
  rw [usesStorage, usesStorage, Activity.active, Activity.active, hflags, hstorage]

section

variable {s s' : StorageState} {call : StorageCall}

theorem StorageInv.activities (h : StorageInv s) {new : Activities} (hstep : ActivityStep s call new) :
    Keyed new ∧ new.length ≤ 8 ∧ (s.lease = true → ∀ a ∈ new, usesStorage a = false) := by
  cases hstep with
  | derived hderived hkeys =>
    refine ⟨h.keyed.sublist hkeys, ?_, fun hlease a ha => ?_⟩
    · have hlength := hkeys.length_le
      rw [length_map, length_map] at hlength
      exact hlength.trans h.few
    · obtain ⟨b, hb, -, -, hstorage, hflags⟩ := hderived a ha
      rw [← usesStorage_congr hflags hstorage]
      exact h.apart hlease b hb
  | set next hplugin hstorage hid hfound hlease hsize =>
    refine ⟨h.keyed.put next, ?_, fun hheld a ha => ?_⟩
    · rcases hsize with hsome | hsmall
      · rw [length_put_of_find (by rw [hplugin]; exact hsome)]
        exact h.few
      · exact (length_put_le _ _).trans hsmall
    · rcases mem_put ha with rfl | ha
      · exact hlease hheld
      · exact h.apart hheld a ha

theorem step_lease (h : storageStep s call = some s') :
    (s'.lease = s.lease ∧ s'.depth = s.depth ∧ s'.leases = s.leases) ∨
      (∃ object thread, object ∉ s.leases.map Lease.object ∧ s' = s.construct object thread) ∨
      ∃ lease ∈ s.leases, call = .destroy lease ∧ s' = s.destroy lease := by
  cases call with
  | setActivity | setActivityFile | activities | removeActivity | markActivityCancelling =>
    cases h
    exact .inl ⟨rfl, rfl, rfl⟩
  | construct object thread =>
    obtain ⟨hnew, h⟩ := Option.ite_none_right_eq_some.mp h
    refine .inr (.inl ⟨object, thread, ?_, (Option.some.inj h).symm⟩)
    simpa using hnew
  | destroy lease =>
    obtain ⟨hmem, h⟩ := Option.ite_none_right_eq_some.mp h
    exact .inr (.inr ⟨lease, hmem, rfl, (Option.some.inj h).symm⟩)

theorem lease_construct (s : StorageState) (object thread : Nat) : (s.construct object thread).lease = s.lease ∨
      (s.construct object thread).lease = true ∧ s.activities.any usesStorage = false := by
  rw [StorageState.construct]
  split_ifs with hnested hbusy
  · exact .inl rfl
  · exact .inl rfl
  · rw [Bool.or_eq_true, not_or, Bool.not_eq_true, Bool.not_eq_true] at hbusy
    exact .inr ⟨rfl, hbusy.2⟩

theorem lease_destroy (s : StorageState) (lease : Lease) (h : (s.destroy lease).lease = true) : s.lease = true := by
  rw [StorageState.destroy] at h
  dsimp only at h
  split_ifs at h
  · exact h
  · exact h

theorem StorageInv.step (h : StorageInv s) (hstep : storageStep s call = some s') : StorageInv s' := by
  obtain ⟨hkeyed, hfew, hapart⟩ := h.activities (step_activities hstep)
  rcases step_lease hstep with ⟨hlease, hdepth, hleases⟩ | ⟨object, thread, hnew, rfl⟩ | ⟨lease, hmem, rfl, rfl⟩
  · refine ⟨hkeyed, hfew, ⟨?_, ?_, ?_, ?_⟩, ?_⟩
    · rw [hdepth, hleases]
      exact h.leases.depth
    · rw [hlease, hleases]
      exact h.leases.held
    · rw [hleases]
      exact h.leases.single
    · rw [hleases]
      exact h.leases.distinct
    · rw [hlease]
      exact hapart
  · refine ⟨hkeyed, hfew, h.leases.construct hnew, fun hheld => ?_⟩
    rcases lease_construct s object thread with hlease | ⟨-, hfree⟩
    · exact hapart (hlease ▸ hheld)
    · rw [activities_construct]
      simpa using hfree
  · exact ⟨hkeyed, hfew, h.leases.destroy hmem, fun hheld => hapart (lease_destroy s lease hheld)⟩

theorem StorageInv.released (h : StorageInv s) (hstep : storageStep s call = some s') (hheld : s.lease = true)
    (hfree : s'.lease = false) : ∃ lease ∈ s.leases, call = .destroy lease ∧ lease.acquired = true ∧
      ∀ l ∈ s.leases, l.acquired = true → l = lease := by
  have hinv := (h.step hstep).leases
  have hnone : ∀ l ∈ s'.leases, l.acquired ≠ true := by
    intro l hl hl'
    rw [hinv.held.mpr ⟨l, hl, hl'⟩] at hfree
    cases hfree
  obtain ⟨owner, howner, hacquired⟩ := h.leases.held.mp hheld
  rcases step_lease hstep with ⟨hlease, -⟩ | ⟨object, thread, -, rfl⟩ | ⟨lease, hmem, rfl, rfl⟩
  · rw [hlease, hheld] at hfree
    cases hfree
  · rcases lease_construct s object thread with hlease | ⟨hlease, -⟩
    · rw [hlease, hheld] at hfree
      cases hfree
    · rw [hlease] at hfree
      cases hfree
  · have hleases : (s.destroy lease).leases = s.leases.erase lease := by
      rw [StorageState.destroy]
      dsimp only
      split_ifs <;> rfl
    have honly : ∀ l ∈ s.leases, l.acquired = true → l = lease := by
      intro l hl hl'
      refine (mem_cons.mp ((perm_cons_erase hmem).mem_iff.mp hl)).resolve_right fun hrest => ?_
      exact hnone l (hleases ▸ hrest) hl'
    exact ⟨lease, hmem, rfl, honly owner howner hacquired ▸ hacquired, honly⟩

theorem StorageInv.stable (h : StorageInv s) {new : Activities} (hstep : ActivityStep s call new) {a b : Activity}
    (ha : a ∈ s.activities) (hactive : a.active = true) (hb : b ∈ new) (hab : b.plugin = a.plugin) :
    b.id = a.id ∧ b.storage = a.storage := by
  have hkept : ∀ c ∈ s.activities, c.plugin = a.plugin → c = a := fun c hc => h.keyed.eq hc ha
  cases hstep with
  | derived hderived hkeys =>
    obtain ⟨c, hc, hplugin, hid, hstorage, -⟩ := hderived b hb
    obtain rfl := hkept c hc (hplugin.trans hab)
    exact ⟨hid.symm, hstorage.symm⟩
  | set next hplugin hstorage hid hfound hlease hsize =>
    rcases mem_put hb with rfl | hb
    · obtain ⟨hid', hstorage'⟩ := hfound a (by rw [← hplugin, hab]; exact h.keyed.find ha) hactive
      exact ⟨hid'.symm, hstorage'.symm⟩
    · rw [hkept b hb hab]
      exact ⟨rfl, rfl⟩

end

def Honest (_ : StorageState) : StorageCall → Prop
  | .setActivity _ _ storage _ _ => temporaryStorage storage = true → InTmp storage
  | .setActivityFile _ _ _ _ _ _ | .activities _ | .removeActivity _ | .markActivityCancelling _ | .construct _ _
  | .destroy _ => True

def Excluded (s : StorageState) : Prop :=
  s.lease = true → ∀ a ∈ s.activities, a.active = true → a.storage ≠ [] → InTmp a.storage

structure Leased (s : StorageState) : Prop where
  oneThread : ∀ l ∈ s.leases, ∀ l' ∈ s.leases, l.acquired = true → l'.acquired = true → l.thread = l'.thread
  held : s.lease = true ↔ ∃ l ∈ s.leases, l.acquired = true
  few : s.activities.length ≤ 8

structure Careful (s : StorageState) (call : StorageCall) (s' : StorageState) : Prop where
  released : s.lease = true → s'.lease = false → ∃ lease ∈ s.leases, call = .destroy lease ∧ lease.acquired = true ∧
    ∀ l ∈ s.leases, l.acquired = true → l = lease
  stable : ∀ a ∈ s.activities, a.active = true → ∀ b ∈ s'.activities, b.plugin = a.plugin →
    b.id = a.id ∧ b.storage = a.storage

theorem storageInv_initial : StorageInv {} :=
  ⟨nodup_nil, Nat.zero_le _, ⟨fun _ => rfl, iff_of_false nofun nofun, nofun, nodup_nil⟩, nofun⟩

theorem reaches_storageInv {P : StorageState → StorageCall → Prop} (h : Reaches storageStep P {} s) : StorageInv s :=
  h.invariant storageInv_initial fun _ _ _ hs _ hstep => hs.step hstep

theorem honest_step {call : StorageCall} {new : Activities} (hstep : ActivityStep s call new)
    (hhonest : Honest s call) (h : ∀ a ∈ s.activities, temporaryStorage a.storage = true → InTmp a.storage) :
    ∀ a ∈ new, temporaryStorage a.storage = true → InTmp a.storage := by
  intro a ha
  cases hstep with
  | derived hderived hkeys =>
    obtain ⟨b, hb, -, -, hstorage, -⟩ := hderived a ha
    rw [← hstorage]
    exact h b hb
  | set next hplugin hstorage hid hfound hlease hsize =>
    rcases mem_put ha with rfl | ha
    · rw [hstorage]
      exact hhonest
    · exact h a ha

theorem reaches_honest (h : Reaches storageStep Honest {} s) :
    ∀ a ∈ s.activities, temporaryStorage a.storage = true → InTmp a.storage :=
  h.invariant (I := fun s => ∀ a ∈ s.activities, temporaryStorage a.storage = true → InTmp a.storage) nofun
    fun _ _ _ hs hhonest hstep => honest_step (step_activities hstep) hhonest hs

theorem StorageInv.excluded (h : StorageInv s)
    (hhonest : ∀ a ∈ s.activities, temporaryStorage a.storage = true → InTmp a.storage) : Excluded s := by
  intro hheld a ha hactive hstorage
  refine hhonest a ha ?_
  have hfree := h.apart hheld a ha
  simpa [usesStorage, hactive, hstorage] using hfree

/-- In every run the lease has one holder, is given up with its last object, and activities keep their storage. The runs
in which no storage path leaves the temporary folder it seems to be in keep plugins and the host apart. -/
theorem storage_exclusion {P : StorageState → StorageCall → Prop} {s : StorageState}
    (h : Reaches storageStep P {} s) : Leased s ∧ (∀ call s', storageStep s call = some s' → Careful s call s') ∧
      ((∀ s call, P s call → Honest s call) → Excluded s) := by
  have hinv := reaches_storageInv h
  refine ⟨⟨hinv.leases.single, hinv.leases.held, hinv.few⟩, fun call s' hstep => ⟨?_, ?_⟩, fun hhonest => ?_⟩
  · exact hinv.released hstep
  · exact fun a ha hactive b hb hab => hinv.stable (step_activities hstep) ha hactive hb hab
  · exact hinv.excluded (reaches_honest (h.mono hhonest))

def sampleActivity (storage : Bytes) : StorageCall :=
  .setActivity (ascii "p") (ascii "P") storage
    { kind := .other 13, requestId := 1, flags := kActivityActive, title := charArray 96 (ascii "t") } 0

/-- A plugin downloads to the temporary folder while a recovery operation runs. -/
theorem storage_exclusion_sample :
    ∃ s, Reaches storageStep Honest {} s ∧ s.lease = true ∧ s.activities.length = 1 ∧ Leased s ∧ Excluded s := by
  have hrun : Reaches storageStep Honest {} _ := Reaches.refl
    |>.step (a := sampleActivity (ascii "/tmp/x")) (fun _ => by decide) rfl
    |>.step (a := .construct 0 0) trivial rfl
  obtain ⟨hleased, -, hexcluded⟩ := storage_exclusion hrun
  exact ⟨_, hrun, by decide, by decide, hleased, hexcluded fun _ _ h => h⟩

/-- A path that leaves the temporary folder is taken for one in it. -/
theorem storage_shared : ¬ ∀ s, Reaches storageStep (fun _ _ => True) {} s → Excluded s := by
  intro h
  have hrun : [sampleActivity (ascii "/tmp/../sdcard"), .construct 0 0].foldlM storageStep {} = some _ := rfl
  have hin := h _ (reaches_of_foldlM hrun) (by decide) _ (mem_singleton.mpr rfl) (by decide) (by decide)
  exact absurd hin (by decide)

end AeraRecovery.PluginApi
