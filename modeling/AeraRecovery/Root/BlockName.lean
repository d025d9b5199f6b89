import AeraRecovery.Root.Effect

namespace AeraRecovery.Root

open Lib Bytes Checks Commands Command List

/-- Both files open, and the copy is stopped before its end. -/
def Copy.Cut (c : Copy) (length expected : Nat) : Prop :=
  c.opensOutput = true ∧ c.opensInput = true ∧ ¬ c.Delivers length expected

/-- `Patch` gets as far as the copy of `image` to the partition. -/
structure Attempt.Flashes (sha256 : Bytes → Bytes) (a : Attempt) (d : Disk) (image : Bytes) : Prop where
  checks : a.checks = .ok ()
  size : 1024 * 1024 ≤ d.fileSize a.measures ∧ d.fileSize a.measures ≤ 64 * 1024 * 1024
  backup : a.backup.opensOutput = true ∧ a.backup.opensInput = true ∧
    a.backup.Delivers d.device.length (d.fileSize a.measures)
  hashesBackup : a.hashesBackup = true
  leaves : a.image = some image
  length : image.length = d.device.length
  changed : a.hashesImage = true ∧ sha256 image ≠ sha256 d.device

def Restore.source (slot : Slot) (r : Restore) (d : Disk) : Bytes × Bytes :=
  let backup := if r.opensFolder then latestBackup slot ((r.list d.backups).map Prod.fst) else []
  (backup, (d.backups.lookup backup).getD [])

/-- `Rollback` gets as far as the copy of the backup. -/
def Restore.Starts (slot : Slot) (r : Restore) (d : Disk) : Prop :=
  (r.source slot d).1 ≠ [] ∧ d.fileSize r.measures ≠ 0 ∧
    (if r.stats then (r.source slot d).2.length else 0) = d.fileSize r.measures

/-- What an operation leaves whose last copy is `c`: before it `starts` this copy only the backups change. -/
structure Copies (c : Copy) (starts : Bytes → Prop) (d d' : Disk) : Prop where
  before : (∀ source, ¬ starts source) → ∃ backups, d' = { d with backups }
  copied : ∀ source, starts source → ∃ backups, d' =
    (c.copyExact source d.device.length).toBlock c.unlinks { d with backups }

variable {sha256 : Bytes → Bytes} {slot : Slot} {d d' : Disk}

theorem copies_of_not {c : Copy} {starts : Bytes → Prop} (hnot : ∀ source, ¬ starts source) (d' : Disk)
    (hd : ∃ backups, d' = { d with backups }) : Copies c starts d d' :=
  ⟨fun _ => hd, fun source h => absurd h (hnot source)⟩

theorem length_toBlock (c : Copy) (source : Bytes) (d : Disk) :
    ((c.copyExact source d.device.length).toBlock c.unlinks d).device.length = d.device.length := by
  have hwritten := c.copyExact_written source d.device.length
  cases hcopied : c.copyExact source d.device.length with
  | unopened | created => rfl
  | stopped written =>
    rw [hcopied] at hwritten
    obtain ⟨m, hm, rfl⟩ := hwritten
    simp only [Copied.toBlock, overwrite, length_append, length_take, length_drop]
    omega
  | complete written =>
    rw [hcopied] at hwritten
    obtain ⟨rfl, hle⟩ := hwritten
    simp only [Copied.toBlock, overwrite, length_append, length_take, length_drop]
    omega

theorem byName_toBlock (c : Copy) (source : Bytes) (hname : d.byName = true) :
    ((c.copyExact source d.device.length).toBlock c.unlinks d).byName = d.byName ↔
      ¬ (c.Cut source.length d.device.length ∧ c.unlinks = true) := by
  have hok := c.copyExact_ok_iff source d.device.length
  have hopened := c.copyExact_opened source d.device.length
  cases hcopied : c.copyExact source d.device.length with
  | unopened | created | stopped written | complete written => simp_all [Copied.toBlock, Copy.Cut, Copied.ok]

theorem flashPatched_copies {a : Attempt} (hchecks : a.checks = .ok ())
    (hsize : 1024 * 1024 ≤ d.fileSize a.measures ∧ d.fileSize a.measures ≤ 64 * 1024 * 1024)
    (hbackup : (a.backup.copyExact d.device (d.fileSize a.measures)).ok = true) :
    Triple (fun d' => ∃ backups, d' = { d with backups }) (flashPatched sha256 slot a d.device)
      (fun _ => Copies a.flash (a.Flashes sha256 d) d) fun _ => Copies a.flash (a.Flashes sha256 d) d := by
  rw [flashPatched]
  by_cases hhash : a.hashesBackup = false
  · rw [if_pos hhash]
    refine triple_bind (R := fun _ d' => ∃ backups, d' = { d with backups }) (triple_modify ?_) fun _ =>
      triple_throw (copies_of_not fun image h => by simp [h.hashesBackup] at hhash)
    rintro _ ⟨backups, rfl⟩
    split_ifs <;> exact ⟨_, rfl⟩
  · rw [if_neg hhash]
    refine triple_try (fun image himage => ?_) fun e hnone =>
      copies_of_not fun image h => by rw [h.leaves] at hnone; cases hnone
    rw [require_ok_iff] at himage
    have hsame {image'} (h : a.Flashes sha256 d image') : image' = image :=
      Option.some.inj (h.leaves.symm.trans himage)
    refine triple_check (fun hlength => ?_) fun hnot => copies_of_not fun image' h => hnot (hsame h ▸ h.length)
    refine triple_check (fun hchanged => ?_) fun hnot => copies_of_not fun image' h => hnot (hsame h ▸ h.changed)
    have hflashes : a.Flashes sha256 d image :=
      ⟨hchecks, hsize, (Copy.copyExact_ok_iff _ _ _).mp hbackup, (Bool.not_eq_false _).mp hhash, himage, hlength, hchanged⟩
    refine triple_bind (R := fun _ => Copies a.flash (a.Flashes sha256 d) d) (triple_modify ?_) fun _ => ?_
    · rintro _ ⟨backups, rfl⟩
      exact ⟨fun hnot => absurd hflashes (hnot image), fun image' h => ⟨backups, by rw [hsame h]⟩⟩
    exact triple_check (fun _ => triple_read) fun _ _ h => h

theorem patch_copies (sha256 : Bytes → Bytes) (slot : Slot) (a : Attempt) (d : Disk) :
    Copies a.flash (a.Flashes sha256 d) d ((patch sha256 slot a).start d).2 := by
  refine Triple.final (P := fun d' => d' = d) ?_ rfl
  refine triple_try (fun _ hchecks => triple_get ?_) fun e herror d' hd =>
    copies_of_not (fun _ h => by rw [h.checks] at herror; cases herror) d' ⟨_, hd⟩
  intro d₀ hd₀
  subst hd₀
  refine triple_check (fun hsize => ?_) fun hnot d' hd => copies_of_not (fun _ h => hnot h.size) d' ⟨_, hd⟩
  refine triple_bind (R := fun _ d' => ∃ backups, d' = { d₀ with backups }) (triple_modify ?_) fun _ => ?_
  · rintro _ rfl
    exact ⟨_, rfl⟩
  · exact triple_check (fun hbackup => flashPatched_copies hchecks hsize hbackup) fun hnot =>
      copies_of_not fun _ h => hnot ((Copy.copyExact_ok_iff _ _ _).mpr h.backup)

theorem rollback_copies (sha256 : Bytes → Bytes) (slot : Slot) (r : Restore) (d : Disk) :
    Copies r.copy (fun source => r.Starts slot d ∧ source = (r.source slot d).2) d
      ((rollback sha256 slot r).start d).2 := by
  refine Triple.final (P := fun d' => d' = d) ?_ rfl
  refine triple_get fun d₀ hd₀ => ?_
  subst hd₀
  refine triple_check (fun hstarts => ?_) fun hnot d' hd => ⟨fun _ => ⟨_, hd⟩, fun _ h => absurd h.1 hnot⟩
  have hsize := (fileSize_ne_zero hstarts.2.1).2.2
  refine triple_bind (R := fun _ => Copies r.copy (fun source => r.Starts slot d₀ ∧ source = (r.source slot d₀).2) d₀)
    (triple_modify ?_) fun _ => ?_
  · rintro _ rfl
    rw [hsize]
    refine ⟨fun hnot => absurd ⟨hstarts, rfl⟩ (hnot _), ?_⟩
    rintro _ ⟨-, rfl⟩
    exact ⟨_, rfl⟩
  refine triple_check (fun _ => ?_) fun _ _ h => h
  exact triple_check (fun _ => triple_read) fun _ _ h => h

theorem Copies.frame {c : Copy} {starts : Bytes → Prop} (h : Copies c starts d d')
    (hname : ∀ source, starts source → d.byName = true) :
    d'.device.length = d.device.length ∧ ((∀ source, ¬ starts source) → d'.device = d.device) ∧
      (d'.byName = d.byName ↔ ∀ source, starts source → ¬ (c.Cut source.length d.device.length ∧ c.unlinks = true)) := by
  have hcopied (source : Bytes) (hsource : starts source) : d'.device.length = d.device.length ∧
      (d'.byName = d.byName ↔ ¬ (c.Cut source.length d.device.length ∧ c.unlinks = true)) := by
    obtain ⟨backups, rfl⟩ := h.copied source hsource
    exact ⟨length_toBlock c source { d with backups },
      byName_toBlock (d := { d with backups }) c source (hname source hsource)⟩
  by_cases hstarts : ∃ source, starts source
  · obtain ⟨source, hsource⟩ := hstarts
    obtain ⟨hlength, hiff⟩ := hcopied source hsource
    refine ⟨hlength, fun hnot => absurd hsource (hnot source), fun hkept source' hsource' => ?_, fun hall => ?_⟩
    · exact (hcopied source' hsource').2.mp hkept
    · exact hiff.mpr (hall source hsource)
  · rw [not_exists] at hstarts
    obtain ⟨backups, rfl⟩ := h.before hstarts
    exact ⟨rfl, fun _ => rfl, iff_of_true rfl fun source hsource => absurd hsource (hstarts source)⟩

/-- Neither operation writes beyond the partition or changes it before its last copy, and the name of the partition
is there afterwards exactly when this copy is not cut, or the removal of its target fails. -/
theorem partition_kept_iff (sha256 : Bytes → Bytes) (slot : Slot) (d : Disk) :
    (∀ a, (((patch sha256 slot a).start d).2.device.length = d.device.length ∧
      ((∀ image, ¬ a.Flashes sha256 d image) → ((patch sha256 slot a).start d).2.device = d.device)) ∧
      (((patch sha256 slot a).start d).2.byName = d.byName ↔
        ∀ image, a.Flashes sha256 d image → ¬ (a.flash.Cut image.length d.device.length ∧ a.flash.unlinks = true))) ∧
    ∀ r, (((rollback sha256 slot r).start d).2.device.length = d.device.length ∧
      (¬ r.Starts slot d → ((rollback sha256 slot r).start d).2.device = d.device)) ∧
      (((rollback sha256 slot r).start d).2.byName = d.byName ↔
        (r.Starts slot d → ¬ (r.copy.Cut (r.source slot d).2.length d.device.length ∧ r.copy.unlinks = true))) := by
  constructor
  · intro a
    obtain ⟨hlength, hbefore, hname⟩ := (patch_copies sha256 slot a d).frame fun _ h =>
      (ready_of_fileSize h.size).1.1
    exact ⟨⟨hlength, hbefore⟩, hname⟩
  · intro r
    obtain ⟨hlength, hbefore, hname⟩ := (rollback_copies sha256 slot r d).frame fun _ h =>
      (fileSize_ne_zero h.1.2.1).1
    refine ⟨⟨hlength, fun hnot => hbefore fun _ h => hnot h.1⟩, hname.trans ⟨fun h hs => h _ ⟨hs, rfl⟩, ?_⟩⟩
    rintro h _ ⟨hs, rfl⟩
    exact h hs

section

def interruptedRestore : Restore where
  list files := files
  opensFolder := true
  measures := true
  stats := true
  copy := ⟨true, true, fun turn => turn = 1, fun _ => 256 * 1024, fun _ => 4096, true, true, true⟩
  hashes := true
  verifies _ := true
  part _ := .refl _

def patchedDisk (device image : Bytes) : Disk := ⟨device, true, [(ascii "init_boot_a-1.img", image)]⟩

theorem interruptedRestore_source (device image : Bytes) :
    interruptedRestore.source .a (patchedDisk device image) = (ascii "init_boot_a-1.img", image) := rfl

theorem interruptedRestore_removes_name {device image : Bytes} (hdevice : device.length = 1024 * 1024)
    (himage : image.length = 1024 * 1024) :
    ((rollback (fun _ => []) .a interruptedRestore).start (patchedDisk device image)).2.byName = false := by
  have hsize : (patchedDisk device image).fileSize interruptedRestore.measures = 1024 * 1024 := hdevice
  have hstarts : interruptedRestore.Starts .a (patchedDisk device image) := by
    rw [Restore.Starts, interruptedRestore_source, hsize]
    exact ⟨cons_ne_nil _ _, by decide, himage⟩
  have hcut : ¬ interruptedRestore.copy.Delivers (1024 * 1024) (1024 * 1024) := by
    intro h
    have hcancel := (h.read 1 (by decide)).1
    cases hcancel
  have hframe := (rollback_copies (fun _ => []) .a interruptedRestore (patchedDisk device image)).frame fun _ _ => rfl
  rw [← Bool.not_eq_true]
  intro hkept
  refine hframe.2.2.mp hkept _ ⟨hstarts, rfl⟩ ⟨⟨rfl, rfl, ?_⟩, rfl⟩
  rwa [interruptedRestore_source, himage, patchedDisk, hdevice]

/-- A rollback of 1 MiB that is cancelled after its first read removes the name of the partition. -/
theorem rollback_removes_name : ((rollback (fun _ => []) .a interruptedRestore).start
    (patchedDisk (replicate (1024 * 1024) 1) (replicate (1024 * 1024) 0))).2.byName = false :=
  interruptedRestore_removes_name length_replicate length_replicate

end

end AeraRecovery.Root
