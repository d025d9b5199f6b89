import AeraRecovery.Root.Effect

namespace AeraRecovery.Root

open Lib Bytes Checks Commands Command List Option Prod

variable {sha256 : Bytes → Bytes} {slot : Slot} {a : Attempt} {d d' : Disk}

def run (sha256 : Bytes → Bytes) (slot : Slot) (history : List Attempt) (d : Disk) : Disk :=
  history.foldl (fun d a => ((patch sha256 slot a).start d).2) d

def Increasing (slot : Slot) (history : List Attempt) : Prop :=
  history.Pairwise fun a b => backupName slot a.stamp < backupName slot b.stamp

structure Reached (slot : Slot) (original : Bytes) (done : List Attempt) (d : Disk) : Prop where
  length : d.device.length = original.length
  names : (d.backups.map fst).Sublist (done.map fun a => backupName slot a.stamp)
  size : d.backups ≠ [] → original ≠ []

variable {done : List Attempt}

theorem Increasing.fresh {todo : List Attempt} (h : Increasing slot (done ++ a :: todo))
    (hnames : (d.backups.map fst).Sublist (done.map fun a => backupName slot a.stamp)) :
    ∀ f ∈ d.backups, f.1 ≠ backupName slot a.stamp := by
  intro f hf heq
  obtain ⟨b, hb, hname⟩ := mem_map.mp (hnames.subset (mem_map_of_mem hf))
  have hlt := (pairwise_append.mp h).2.2 b hb a mem_cons_self
  rw [hname, heq] at hlt
  exact List.lt_irrefl _ hlt

variable {original : Bytes}

theorem Effect.reached (h : Effect slot a d d')
    (hd : Reached slot original done d) : Reached slot original (done ++ [a]) d' := by
  have hmore : ∀ content, ((d.backups ++ [(backupName slot a.stamp, content)]).map fst).Sublist
      ((done ++ [a]).map fun b : Attempt => backupName slot b.stamp) := by
    intro content
    rw [map_append, map_append]
    exact hd.names.append (Sublist.refl _)
  have horiginal : d.Ready → original ≠ [] := by
    rintro ⟨-, hsize, -⟩ rfl
    rw [hd.length] at hsize
    exact absurd hsize (by decide)
  cases h with
  | nothing =>
    refine ⟨hd.length, hd.names.trans ?_, hd.size⟩
    rw [map_append]
    exact sublist_append_left _ _
  | left content hready => exact ⟨hd.length, hmore _, fun _ => horiginal hready⟩
  | torn written hready _ _ hlength =>
    refine ⟨?_, hmore _, fun _ => horiginal hready⟩
    rw [← hd.length, overwrite, length_append, length_drop]
    omega
  | flashed image hready _ hlength => exact ⟨hlength.trans hd.length, hmore _, fun _ => horiginal hready⟩

variable {history : List Attempt}

theorem run_invariant (sha256 : Bytes → Bytes) {I : List Attempt → Disk → Prop} (hnames : Increasing slot history)
    (hstart : I [] ⟨original, true, []⟩)
    (hstep : ∀ done a todo d d', history = done ++ a :: todo → Reached slot original done d → I done d →
      Effect slot a d d' → I (done ++ [a]) d') :
    Reached slot original history (run sha256 slot history ⟨original, true, []⟩) ∧
      I history (run sha256 slot history ⟨original, true, []⟩) := by
  suffices h : ∀ todo done d, history = done ++ todo → Reached slot original done d → I done d →
      Reached slot original history (run sha256 slot todo d) ∧ I history (run sha256 slot todo d) by
    exact h history [] _ rfl ⟨rfl, Sublist.refl _, fun h => absurd rfl h⟩ hstart
  intro todo
  induction todo with
  | nil =>
    intro done d hsplit hd hI
    rw [append_nil] at hsplit
    exact hsplit ▸ ⟨hd, hI⟩
  | cons a todo ih =>
    intro done d hsplit hd hI
    have heffect : Effect slot a d ((patch sha256 slot a).start d).2 :=
      patch_effect ((hsplit ▸ hnames : Increasing slot (done ++ a :: todo)).fresh hd.names)
    exact ih (done ++ [a]) _ (by rw [hsplit, append_cons]) (heffect.reached hd)
      (hstep done a todo d _ hsplit hd hI heffect)

theorem foldl_latest {accepts : Bytes → Prop} [DecidablePred accepts] {names : List Bytes} {latest last : Bytes}
    (haccepts : ∀ n ∈ names, accepts n) (hnames : ∀ n ∈ names, n = last ∨ n < last)
    (hlatest : latest = last ∨ latest < last) (hmem : last ∈ names ∨ latest = last) :
    names.foldl (fun latest name => if accepts name ∧ latest < name then name else latest) latest = last := by
  induction names generalizing latest with
  | nil => exact hmem.resolve_left not_mem_nil
  | cons n names ih =>
    obtain ⟨hn, hrest⟩ := forall_mem_cons.mp hnames
    rw [foldl_cons]
    apply ih (forall_mem_cons.mp haccepts).2 hrest
    · split_ifs
      · exact hn
      · exact hlatest
    · rcases hlatest with rfl | hlt
      · right
        rw [if_neg]
        rintro ⟨-, hgt⟩
        rcases hn with rfl | hn
        · exact List.lt_irrefl _ hgt
        · exact List.lt_irrefl _ (List.lt_trans hgt hn)
      · rcases hmem with hmem | rfl
        · rcases mem_cons.mp hmem with rfl | hmem
          · exact .inr (if_pos ⟨(forall_mem_cons.mp haccepts).1, hlt⟩)
          · exact .inl hmem
        · exact absurd hlt (List.lt_irrefl _)

theorem isBackup_backupName (slot : Slot) (a : Attempt) : isBackup slot (backupName slot a.stamp) = true := by
  obtain ⟨namePrefix, hpref⟩ : ∃ namePrefix, ascii "init_boot_" ++ slot.text ++ ascii "-" = namePrefix := ⟨_, rfl⟩
  have hname : backupName slot a.stamp = namePrefix ++ (a.stamp ++ ascii ".img") := by
    rw [backupName, hpref, append_assoc]
  have himg : (ascii ".img").length = 4 := rfl
  have hpos := length_pos_of_ne_nil a.stamp_ne
  simp only [isBackup, hpref, hname, take_left, length_append, himg, decide_true, Bool.true_and,
    Bool.and_eq_true, decide_eq_true_eq]
  refine ⟨by omega, ?_⟩
  rw [← append_assoc]
  have hlen : namePrefix.length + (a.stamp.length + 4) - 4 = (namePrefix ++ a.stamp).length := by
    rw [length_append]
    omega
  rw [hlen, drop_left]

variable {f : Bytes × Bytes}

theorem Reached.isBackup (hd : Reached slot original history d)
    (hf : f ∈ d.backups) : isBackup slot f.1 = true := by
  obtain ⟨a, -, hname⟩ := mem_map.mp (hd.names.subset (mem_map_of_mem hf))
  rw [← hname]
  exact isBackup_backupName slot a

theorem Reached.name_ne_nil (hd : Reached slot original history d) (hf : f ∈ d.backups) : f.1 ≠ [] := by
  intro hnil
  have hbackup := hd.isBackup hf
  rw [hnil] at hbackup
  cases slot <;> cases hbackup

section

variable (hnames : Increasing slot history) (hd : Reached slot original history d)

include hnames hd

/-- Whatever the order of a complete listing, the choice falls on the file of the last attempt that left one. -/
theorem latestBackup_eq {names : List Bytes} (hperm : names.Perm (d.backups.map fst))
    (hlast : d.backups.getLast? = some f) : latestBackup slot names = f.1 := by
  have hincreasing : (d.backups.map fst).Pairwise (· < ·) :=
    (pairwise_map.mpr hnames).sublist hd.names
  have hmem := mem_of_getLast? hlast
  obtain ⟨init, hinit⟩ := getLast?_eq_some_iff.mp hlast
  rw [hinit, map_append] at hincreasing
  apply foldl_latest
  · intro n hn
    obtain ⟨g, hg, rfl⟩ := mem_map.mp (hperm.subset hn)
    exact hd.isBackup hg
  · intro n hn
    have hn' := hperm.subset hn
    rw [hinit, map_append] at hn'
    rcases mem_append.mp hn' with hn' | hn'
    · exact .inr ((pairwise_append.mp hincreasing).2.2 n hn' f.1 (mem_singleton_self _))
    · exact .inl (mem_singleton.mp hn')
  · right
    obtain ⟨x, xs, hcons⟩ := exists_cons_of_ne_nil (hd.name_ne_nil hmem)
    rw [hcons]
    exact nil_lt_cons x xs
  · exact .inl (hperm.symm.subset (mem_map_of_mem hmem))

theorem lookup_mem (hf : f ∈ d.backups) : d.backups.lookup f.1 = some f.2 := by
  have hincreasing : (d.backups.map fst).Pairwise (· < ·) :=
    (pairwise_map.mpr hnames).sublist hd.names
  obtain ⟨init, rest, hsplit⟩ := append_of_mem hf
  rw [hsplit, map_append, pairwise_append] at hincreasing
  have hother : init.lookup f.1 = none := by
    refine lookup_eq_none_iff.mpr fun g hg => bne_iff_ne.mpr fun heq => ?_
    have hlt := hincreasing.2.2 g.1 (mem_map_of_mem hg) f.1 mem_cons_self
    rw [heq] at hlt
    exact List.lt_irrefl _ hlt
  rw [hsplit, lookup_append, hother, none_or, lookup_cons_self]

end

/-- The choice is one of the names that are listed. -/
theorem latestBackup_mem (slot : Slot) (names : List Bytes) (h : latestBackup slot names ≠ []) :
    latestBackup slot names ∈ names := by
  refine (foldlRecOn (motive := fun latest => latest = [] ∨ latest ∈ names) names _ (.inl rfl)
    fun latest hlatest name hname => ?_).resolve_left h
  split_ifs
  · exact .inr hname
  · exact hlatest

namespace Restore

/-- No call of a rollback fails but perhaps a `readdir`. -/
structure Calm (r : Restore) : Prop where
  opensFolder : r.opensFolder = true
  measures : r.measures = true
  stats : r.stats = true
  copy : r.copy.Smooth
  hashes : r.hashes = true
  verifies : ∀ n, r.verifies n = true

structure Smooth (r : Restore) : Prop extends Calm r where
  all : ∀ files, (r.list files).Perm files

/-- The backup that is chosen is `f`. -/
def Chooses (r : Restore) (slot : Slot) (d : Disk) (f : Bytes × Bytes) : Prop :=
  f ∈ d.backups ∧ latestBackup slot ((r.list d.backups).map fst) = f.1

end Restore

theorem Restore.Chooses.content_eq {r : Restore} {g : Bytes × Bytes} (hf : r.Chooses slot d f) (hnames : Increasing slot history)
    (hd : Reached slot original history d) (hg : r.Chooses slot d g) : f.2 = g.2 := by
  have hlookup := lookup_mem hnames hd hf.1
  rw [← hf.2, hg.2, lookup_mem hnames hd hg.1] at hlookup
  exact (some.inj hlookup).symm

theorem rollback_spec (sha256 : Bytes → Bytes) (hnames : Increasing slot history)
    (hd : Reached slot original history d) (r : Restore) : Triple (fun d' => d' = d) (rollback sha256 slot r)
      (fun _ d' => d.byName = true ∧ ∃ f, r.Chooses slot d f ∧ f.2.length = d.device.length ∧ d'.device = f.2)
      fun _ _ => ¬ (r.Calm ∧ d.byName = true ∧ d.device ≠ [] ∧
        ∃ f, r.Chooses slot d f ∧ f.2.length = d.device.length) := by
  refine triple_get fun d₁ hd₁ => ?_
  rw [hd₁]
  refine triple_check (fun hfound => ?_) ?_
  · have hopen : r.opensFolder = true := by
      by_contra hclosed
      exact hfound.1 (if_neg hclosed)
    rw [if_pos hopen] at hfound ⊢
    obtain ⟨f, hlisted, hchoice⟩ := mem_map.mp (latestBackup_mem slot _ hfound.1)
    have hf : f ∈ d.backups := (r.part d.backups).subset hlisted
    rw [← hchoice, lookup_mem hnames hd hf, getD_some] at hfound ⊢
    obtain ⟨hname, -, hsize⟩ := fileSize_ne_zero hfound.2.1
    have hstats : r.stats = true := by
      by_contra hnot
      rw [if_neg hnot] at hfound
      exact hfound.2.1 hfound.2.2.symm
    rw [if_pos hstats, hsize] at hfound
    rw [hsize, ← hfound.2.2]
    refine triple_bind (R := fun _ d' => d' = (r.copy.copyExact f.2 f.2.length).toBlock r.copy.unlinks d)
      (triple_modify fun _ hd' => congrArg _ hd') fun _ => ?_
    refine triple_check (fun hok => ?_) fun hfail _ _ hgood => ?_
    · have hrestored : (Copied.complete f.2).toBlock r.copy.unlinks d = { d with device := f.2 } := by
        rw [Copied.toBlock, overwrite_of_length_eq hfound.2.2]
      rw [(complete_of_ok hok).1, hrestored]
      refine triple_check (fun _ => triple_get fun d₂ hd₂ => triple_ofExcept ?_ ?_) fun hfail _ _ hgood => ?_
      · rintro _ _ - rfl
        rw [hd₂]
        exact ⟨hname, f, ⟨hf, hchoice.symm⟩, rfl, rfl⟩
      · intro e _ hfail _ hgood
        have hverified : verifyBlockWrite sha256 r.verifies d₂ (sha256 f.2) = true := by
          rw [hd₂, verifyBlockWrite, List.any_eq_true]
          exact ⟨0, by decide, by simp [hgood.1.verifies, hname]⟩
        rw [ensure, if_pos hverified] at hfail
        cases hfail
      · exact hfail hgood.1.hashes
    · rw [hgood.1.copy.copyExact le_rfl] at hfail
      exact hfail rfl
  · rintro hnot _ - ⟨hcalm, hname, hne, f, ⟨hf, hchoice⟩, hlength⟩
    apply hnot
    rw [if_pos hcalm.opensFolder, if_pos hcalm.stats, hchoice, lookup_mem hnames hd hf, getD_some, Disk.fileSize, hname,
      hcalm.measures]
    exact ⟨hd.name_ne_nil hf, (length_pos_of_ne_nil hne).ne', hlength⟩

/-- What a rollback does that no call but a `readdir` stops, if it chooses a backup of the right size. -/
theorem rollback_chosen (sha256 : Bytes → Bytes) (hnames : Increasing slot history)
    (hd : Reached slot original history d) {r : Restore} (hcalm : r.Calm) (hname : d.byName = true)
    (hchoice : r.Chooses slot d f) (hlength : f.2.length = d.device.length) :
    ((rollback sha256 slot r).start d).1 = .ok () ∧ ((rollback sha256 slot r).start d).2.device = f.2 := by
  have hdevice : d.device ≠ [] := by
    intro hnil
    have horiginal := hd.length
    rw [hnil] at horiginal
    exact hd.size (ne_nil_of_mem hchoice.1) (length_eq_zero_iff.mp horiginal.symm)
  have hspec := rollback_spec sha256 hnames hd r d rfl
  revert hspec
  rcases (rollback sha256 slot r).start d with ⟨e | u, d'⟩
  · exact fun hfail => absurd ⟨hcalm, hname, hdevice, f, hchoice, hlength⟩ hfail
  · rintro ⟨-, g, hg, -, hrestored⟩
    exact ⟨rfl, hrestored.trans (hg.content_eq hnames hd hchoice)⟩

/-- What the user may expect of a rollback after the history: it brings back the original, and it fails only when a
call fails. -/
def Recovers (sha256 : Bytes → Bytes) (slot : Slot) (original : Bytes) (d : Disk) : Prop :=
  ∀ r : Restore, (((rollback sha256 slot r).start d).1 = .ok () → ((rollback sha256 slot r).start d).2.device = original) ∧
    (r.Smooth → ((rollback sha256 slot r).start d).1 = .ok ())

def smoothCopy : Copy := ⟨true, true, fun _ => false, fun _ => 1, fun _ => 1, true, false, true⟩

theorem smoothCopy_smooth : smoothCopy.Smooth :=
  ⟨rfl, rfl, fun _ => rfl, fun _ => one_ne_zero, fun _ => one_ne_zero, rfl, rfl⟩

/-- Nothing fails, and the folder is listed as far as `keep` says. -/
def calmRestore (keep : Bytes × Bytes → Bool) : Restore where
  list files := files.filter keep
  opensFolder := true
  measures := true
  stats := true
  copy := smoothCopy
  hashes := true
  verifies _ := true
  part _ := filter_sublist.subperm

theorem calmRestore_calm (keep : Bytes × Bytes → Bool) : (calmRestore keep).Calm where
  opensFolder := rfl
  measures := rfl
  stats := rfl
  copy := smoothCopy_smooth
  hashes := rfl
  verifies _ := rfl

def smoothRestore : Restore := calmRestore fun _ => true

theorem smoothRestore_smooth : smoothRestore.Smooth where
  toCalm := calmRestore_calm _
  all _ := .of_eq (filter_eq_self.mpr fun _ _ => rfl)

theorem Restore.Smooth.chooses {r : Restore} (h : r.Smooth) (hnames : Increasing slot history)
    (hd : Reached slot original history d) (hlast : d.backups.getLast? = some f) : r.Chooses slot d f :=
  ⟨mem_of_getLast? hlast, latestBackup_eq hnames hd ((h.all d.backups).map _) hlast⟩

/-- A listing can stop where only `f` has been seen. -/
theorem chooses_only (hd : Reached slot original history d) (hf : f ∈ d.backups) :
    (calmRestore (· = f)).Chooses slot d f := by
  have hlisted : ∀ n ∈ (d.backups.filter (· = f)).map fst, n = f.1 := by
    intro n hn
    obtain ⟨g, hg, rfl⟩ := mem_map.mp hn
    rw [of_decide_eq_true (mem_filter.mp hg).2]
  refine ⟨hf, foldl_latest (fun n hn => ?_) (fun n hn => .inl (hlisted n hn)) ?_ (.inl ?_)⟩
  · rw [hlisted n hn]
    exact hd.isBackup hf
  · obtain ⟨x, xs, hcons⟩ := exists_cons_of_ne_nil (hd.name_ne_nil hf)
    rw [hcons]
    exact .inr (nil_lt_cons x xs)
  · exact mem_map_of_mem (mem_filter.mpr ⟨hf, decide_eq_true rfl⟩)

/-- The last backup is the original, and so is every other one of its size. -/
def Recoverable (original : Bytes) (d : Disk) : Prop :=
  d.byName = true ∧ d.backups.getLast?.map snd = some original ∧
    ∀ f ∈ d.backups, f.2.length = d.device.length → f.2 = original

theorem recovers_iff (hnames : Increasing slot history) (hd : Reached slot original history d) :
    Recovers sha256 slot original d ↔ Recoverable original d := by
  constructor
  · intro h
    obtain ⟨hback, hok⟩ := h smoothRestore
    have hok := hok smoothRestore_smooth
    have hback := hback hok
    have hspec := rollback_spec sha256 hnames hd smoothRestore d rfl
    revert hok hback hspec
    rcases (rollback sha256 slot smoothRestore).start d with ⟨e | u, d'⟩
    · exact fun hok => nomatch hok
    · rintro - hback ⟨hname, f, hchoice, -, hdevice⟩
      refine ⟨hname, ?_, fun g hg hlength => ?_⟩
      · obtain ⟨g, hlast⟩ := ne_none_iff_exists'.mp (mt getLast?_eq_none_iff.mp (ne_nil_of_mem hchoice.1))
        rw [hlast, map_some, ← hchoice.content_eq hnames hd (smoothRestore_smooth.chooses hnames hd hlast), ← hdevice,
          ← hback]
      · obtain ⟨hok, hrestored⟩ := rollback_chosen sha256 hnames hd (calmRestore_calm _) hname (chooses_only hd hg) hlength
        exact hrestored.symm.trans ((h _).1 hok)
  · rintro ⟨hname, hlast, hall⟩ r
    obtain ⟨f, hlast, hf⟩ := map_eq_some_iff.mp hlast
    refine ⟨fun hok => ?_, fun hsmooth => ?_⟩
    · have hspec := rollback_spec sha256 hnames hd r d rfl
      revert hspec hok
      rcases (rollback sha256 slot r).start d with ⟨e | u, d'⟩
      · exact fun hok => nomatch hok
      · rintro - ⟨-, g, hg, hlength, hrestored⟩
        exact hrestored.trans (hall g hg.1 hlength)
    · exact (rollback_chosen sha256 hnames hd hsmooth.toCalm hname (hsmooth.chooses hnames hd hlast)
        (by rw [hf, hd.length])).1

/-- A history that a rollback can undo: no attempt leaves a part of a backup or breaks off while it writes the
partition, one of them completes its backup, and after one has opened the partition none gets as far as a backup. -/
structure Undisturbed (history : List Attempt) : Prop where
  gentle : ∀ a ∈ history, a.Gentle
  once : history.Pairwise fun a b => a.Writes → ¬ b.Reaches
  saved : ∃ a ∈ history, a.Saves

/-- Every backup holds the original, and the partition holds it until an attempt has opened it. -/
structure Undone (original : Bytes) (done : List Attempt) (d : Disk) : Prop where
  byName : d.byName = true
  backups : ∀ f ∈ d.backups, f.2 = original
  device : d.device = original ∨ ∃ b ∈ done, b.Writes
  saved : (∃ b ∈ done, b.Saves) → d.backups ≠ []

theorem Undone.step {history todo : List Attempt} (hundisturbed : Undisturbed history)
    (hsize : 1024 * 1024 ≤ original.length ∧ original.length ≤ 64 * 1024 * 1024) (hsplit : history = done ++ a :: todo)
    (hd : Reached slot original done d) (h : Undone original done d) (heffect : Effect slot a d d') :
    Undone original (done ++ [a]) d' := by
  have hgentle : a.Gentle := hundisturbed.gentle a (by rw [hsplit]; simp)
  have hready : d.Ready := ⟨h.byName, by rw [hd.length]; exact hsize⟩
  -- an attempt that reaches its backup finds the original
  have hunwritten : a.Reaches → d.device = original := by
    intro hreaches
    refine h.device.resolve_right ?_
    rintro ⟨b, hb, hwrites⟩
    have honce := hundisturbed.once
    rw [hsplit] at honce
    exact (pairwise_append.mp honce).2.2 b hb a mem_cons_self hwrites hreaches
  have hmore : a.Reaches → ∀ f ∈ d.backups ++ [(backupName slot a.stamp, d.device)], f.2 = original := by
    intro hreaches f hf
    rcases mem_append.mp hf with hf | hf
    · exact h.backups f hf
    · rw [mem_singleton.mp hf]
      exact hunwritten hreaches
  have hkept : (∃ b ∈ done, b.Writes) → ∃ b ∈ done ++ [a], b.Writes := by
    rintro ⟨b, hb, hwrites⟩
    exact ⟨b, mem_append_left _ hb, hwrites⟩
  cases heffect with
  | nothing hsaves =>
    refine ⟨h.byName, h.backups, h.device.imp_right hkept, ?_⟩
    rintro ⟨b, hb, hsaved⟩
    rcases mem_append.mp hb with hb | hb
    · exact h.saved ⟨b, hb, hsaved⟩
    · rw [mem_singleton.mp hb] at hsaved
      exact absurd hsaved (hsaves hready)
  | left content _ hreaches hcontent =>
    rw [hcontent hgentle]
    exact ⟨h.byName, hmore hreaches, h.device.imp_right hkept, fun _ => by simp⟩
  | torn written _ _ hnot => exact absurd hgentle hnot
  | flashed image _ hwrites _ =>
    refine ⟨h.byName, hmore hwrites.1, .inr ⟨a, ?_, hwrites⟩, fun _ => by simp⟩
    exact mem_append_right _ (mem_singleton_self a)

/-- After a history a rollback can be relied on if and only if the name of the partition is still there, the last
backup holds the original, and every other backup of the partition's size holds it too. It is so after every
undisturbed history. -/
theorem rollback_recovers_iff (sha256 : Bytes → Bytes) (slot : Slot) (original : Bytes) (history : List Attempt)
    (hnames : Increasing slot history) :
    (Recovers sha256 slot original (run sha256 slot history ⟨original, true, []⟩) ↔
      Recoverable original (run sha256 slot history ⟨original, true, []⟩)) ∧
    (1024 * 1024 ≤ original.length ∧ original.length ≤ 64 * 1024 * 1024 → Undisturbed history →
      Recovers sha256 slot original (run sha256 slot history ⟨original, true, []⟩)) := by
  constructor
  · obtain ⟨hreached, -⟩ := run_invariant sha256 (I := fun _ _ => True) hnames trivial
      fun _ _ _ _ _ _ _ _ _ => trivial
    exact recovers_iff hnames hreached
  · intro hsize hundisturbed
    obtain ⟨hreached, hundone⟩ := run_invariant sha256 (I := Undone original) hnames
      ⟨rfl, nofun, .inl rfl, fun ⟨_, hb, _⟩ => absurd hb not_mem_nil⟩
      fun done a todo d d' hsplit hd h heffect => h.step hundisturbed hsize hsplit hd heffect
    refine (recovers_iff hnames hreached).mpr ⟨hundone.byName, ?_, fun f hf _ => hundone.backups f hf⟩
    obtain ⟨f, hlast⟩ := ne_none_iff_exists'.mp
      (mt getLast?_eq_none_iff.mp (hundone.saved hundisturbed.saved))
    rw [hlast, map_some, hundone.backups f (mem_of_getLast? hlast)]

section

variable (b : UInt8)

def attempt (flash : Copy) : Attempt where
  checks := .ok ()
  measures := true
  stamp := [b]
  backup := smoothCopy
  hashesBackup := true
  unlinksBackup := true
  image := some (replicate (1024 * 1024) b)
  hashesImage := true
  flash
  verifies _ := true
  stamp_ne := cons_ne_nil _ _

theorem attempt_saves (flash : Copy) : (attempt b flash).Saves := ⟨rfl, rfl, smoothCopy_smooth, rfl⟩

def filled : Bytes := replicate (1024 * 1024) b

theorem rollback_recovers_attempt :
    Recovers id .a (filled 0) (run id .a [attempt 1 smoothCopy] ⟨filled 0, true, []⟩) := by
  refine (rollback_recovers_iff id .a (filled 0) [attempt 1 smoothCopy] (pairwise_singleton _ _)).2 ?_ ?_
  · rw [filled, length_replicate]
    decide
  · refine ⟨?_, pairwise_singleton _ _, attempt 1 smoothCopy, mem_singleton_self _, attempt_saves 1 _⟩
    intro a ha
    rw [mem_singleton.mp ha]
    exact ⟨fun _ => rfl, rfl, fun _ _ => smoothCopy_smooth⟩

theorem length_filled : (filled b).length = 1024 * 1024 := length_replicate

theorem filled_ne {b c : UInt8} (h : b ≠ c) : filled b ≠ filled c := by
  intro heq
  have hmem : b ∈ filled c := heq ▸ mem_replicate.mpr ⟨by decide, rfl⟩
  exact h (eq_of_mem_replicate hmem)

theorem attempt_start {b c : UInt8} {flash : Copy} {files : List (Bytes × Bytes)} (hbc : b ≠ c)
    (hfresh : ∀ f ∈ files, f.1 ≠ backupName .a [b]) :
    ((patch id .a (attempt b flash)).start ⟨filled c, true, files⟩).2 =
      (flash.copyExact (filled b) (filled c).length).toBlock flash.unlinks
        ⟨filled c, true, files ++ [(backupName .a [b], filled c)]⟩ := by
  have hready : (⟨filled c, true, files⟩ : Disk).Ready := ⟨rfl, by rw [length_filled]; decide⟩
  exact patch_image (a := attempt b flash) hfresh hready (attempt_saves b flash) rfl
    ((length_filled b).trans (length_filled c).symm) ⟨rfl, filled_ne hbc⟩

def cancelledCopy : Copy := { smoothCopy with cancel := fun _ => true, cancelled := true }

theorem cancelledCopy_stopped (source : Bytes) (n : Nat) : cancelledCopy.copyExact source (n + 1) = .stopped [] := rfl

theorem run_cancelled : run id .a [attempt 1 cancelledCopy] ⟨filled 0, true, []⟩ =
    ⟨filled 0, false, [(backupName .a [1], filled 0)]⟩ := by
  rw [run, foldl_cons, foldl_nil, attempt_start (by decide) (fun _ hf => absurd hf not_mem_nil),
    length_filled, cancelledCopy_stopped]
  rfl

theorem run_twice : run id .a [attempt 1 smoothCopy, attempt 2 smoothCopy] ⟨filled 0, true, []⟩ =
    ⟨filled 2, true, [(backupName .a [1], filled 0), (backupName .a [2], filled 1)]⟩ := by
  have hflash : ∀ b c, (smoothCopy.copyExact (filled b) (filled c).length) = .complete (filled b) := by
    intro b c
    rw [length_filled, ← length_filled b, smoothCopy_smooth.copyExact le_rfl, take_length]
  have hwrite : ∀ b c, (filled c).overwrite (filled b) = filled b := fun b c =>
    overwrite_of_length_eq ((length_filled b).trans (length_filled c).symm)
  rw [run, foldl_cons, foldl_cons, foldl_nil,
    attempt_start (by decide) (fun _ hf => absurd hf not_mem_nil), hflash, Copied.toBlock, hwrite,
    attempt_start (by decide) ?_, hflash, Copied.toBlock, hwrite]
  · rfl
  · intro f hf
    rw [mem_singleton.mp hf]
    decide

theorem rollback_unnamed {r : Restore} (h : d.byName = false) :
    ((rollback sha256 slot r).start d).1 = .error .noRollback := by
  have hspec : Triple (fun d' => d' = d) (rollback sha256 slot r) (fun _ _ => False) fun e _ => e = .noRollback := by
    refine triple_get fun d' hd' => triple_check (fun hfound => ?_) fun _ _ _ => rfl
    rw [hd', Disk.fileSize, h] at hfound
    exact absurd rfl hfound.2.1
  have hmatch := hspec d rfl
  revert hmatch
  rcases (rollback sha256 slot r).start d with ⟨e | u, d'⟩
  · exact congrArg Except.error
  · exact False.elim

/-- After two patches a rollback brings back the first patched image. After a patch that was cancelled while it wrote
the partition a rollback does not find the partition. -/
theorem rollback_misses_original : (((rollback id .a smoothRestore).start
        (run id .a [attempt 1 smoothCopy, attempt 2 smoothCopy] ⟨filled 0, true, []⟩)).1 = .ok () ∧
      ((rollback id .a smoothRestore).start
        (run id .a [attempt 1 smoothCopy, attempt 2 smoothCopy] ⟨filled 0, true, []⟩)).2.device = filled 1) ∧
    filled 1 ≠ filled 0 ∧ smoothRestore.Smooth ∧
    ((rollback id .a smoothRestore).start (run id .a [attempt 1 cancelledCopy] ⟨filled 0, true, []⟩)).1 =
      .error .noRollback := by
  refine ⟨?_, filled_ne (by decide), smoothRestore_smooth, ?_⟩
  · have hnames : Increasing .a [attempt 1 smoothCopy, attempt 2 smoothCopy] := by
      refine pairwise_cons.mpr ⟨fun a ha => ?_, pairwise_singleton _ _⟩
      rw [mem_singleton.mp ha]
      decide
    have hreached : Reached .a (filled 0) _ (run id .a [attempt 1 smoothCopy, attempt 2 smoothCopy] _) :=
      (run_invariant id (I := fun _ _ => True) hnames trivial fun _ _ _ _ _ _ _ _ _ => trivial).1
    obtain ⟨d, hd⟩ : ∃ d, run id .a [attempt 1 smoothCopy, attempt 2 smoothCopy] ⟨filled 0, true, []⟩ = d := ⟨_, rfl⟩
    rw [hd] at hreached ⊢
    rw [run_twice] at hd
    have hlast : d.backups.getLast? = some (backupName .a [2], filled 1) := by rw [← hd]; rfl
    have hdevice : d.device = filled 2 := by rw [← hd]
    have hname : d.byName = true := by rw [← hd]
    exact rollback_chosen id hnames hreached smoothRestore_smooth.toCalm hname
      (smoothRestore_smooth.chooses hnames hreached hlast) (by rw [hdevice, length_filled, length_filled])
  · rw [run_cancelled]
    exact rollback_unnamed rfl

end

end AeraRecovery.Root
