import AeraRecovery.Root.Patch

namespace AeraRecovery.Root

open Lib Bytes Checks Commands Command List

/-- The partition can be found and has a size that `Patch` accepts. -/
def Disk.Ready (d : Disk) : Prop :=
  d.byName = true ∧ 1024 * 1024 ≤ d.device.length ∧ d.device.length ≤ 64 * 1024 * 1024

namespace Attempt

variable (a : Attempt)

def Reaches : Prop := a.checks = .ok () ∧ a.measures = true ∧ a.backup.opensOutput = true

def Writes : Prop :=
  a.Reaches ∧ a.image.isSome = true ∧ a.flash.opensInput = true ∧ a.flash.opensOutput = true

structure Saves : Prop where
  checks : a.checks = .ok ()
  measures : a.measures = true
  backup : a.backup.Smooth
  hashesBackup : a.hashesBackup = true

/-- It leaves no part of a backup, and it is not stopped while it writes the partition. -/
structure Gentle : Prop where
  input : a.backup.opensOutput = true → a.backup.opensInput = true
  unlinks : a.backup.unlinks = true
  flash : a.flash.opensInput = true → a.flash.opensOutput = true → a.flash.Smooth

end Attempt

variable {sha256 : Bytes → Bytes} {slot : Slot} {a : Attempt} {d d' : Disk}

/-- The four things an attempt can do: nothing that lasts, leave a file among the backups, break off while it writes
the partition, or write all of it. -/
inductive Effect (slot : Slot) (a : Attempt) (d : Disk) : Disk → Prop
  | nothing (hsaves : d.Ready → ¬ a.Saves) : Effect slot a d d
  | left (content : Bytes) (hready : d.Ready) (hreaches : a.Reaches) (hgentle : a.Gentle → content = d.device) :
      Effect slot a d { d with backups := d.backups ++ [(backupName slot a.stamp, content)] }
  | torn (written : Bytes) (hready : d.Ready) (hwrites : a.Writes) (hgentle : ¬ a.Gentle)
      (hlength : written.length ≤ d.device.length) :
      Effect slot a d ⟨d.device.overwrite written, d.byName && !a.flash.unlinks,
        d.backups ++ [(backupName slot a.stamp, d.device)]⟩
  | flashed (image : Bytes) (hready : d.Ready) (hwrites : a.Writes) (hlength : image.length = d.device.length) :
      Effect slot a d ⟨image, d.byName, d.backups ++ [(backupName slot a.stamp, d.device)]⟩

variable {files : List (Bytes × Bytes)} {name : Bytes}

theorem removeFile_fresh (h : ∀ f ∈ files, f.1 ≠ name) :
    removeFile name files = files := filter_eq_self.mpr fun f hf => decide_eq_true (h f hf)

theorem putFile_fresh (content : Bytes) (h : ∀ f ∈ files, f.1 ≠ name) :
    putFile name content files = files ++ [(name, content)] := congrArg (· ++ _) (removeFile_fresh h)

theorem removeFile_putFile (content : Bytes)
    (h : ∀ f ∈ files, f.1 ≠ name) : removeFile name (putFile name content files) = files := by
  rw [putFile_fresh content h, removeFile, filter_append, filter_cons_of_neg (by simp), filter_nil, append_nil]
  exact removeFile_fresh h

theorem fileSize_ne_zero {measures : Bool} (h : d.fileSize measures ≠ 0) :
    d.byName = true ∧ measures = true ∧ d.fileSize measures = d.device.length := by
  rw [Disk.fileSize] at h ⊢
  split_ifs at h ⊢ with hfound
  · obtain ⟨hname, hmeasures⟩ := Bool.and_eq_true_iff.mp hfound
    exact ⟨hname, hmeasures, rfl⟩
  · exact absurd rfl h

theorem ready_of_fileSize {measures : Bool}
    (h : 1024 * 1024 ≤ d.fileSize measures ∧ d.fileSize measures ≤ 64 * 1024 * 1024) :
    d.Ready ∧ measures = true ∧ d.fileSize measures = d.device.length := by
  obtain ⟨hname, hmeasures, hsize⟩ := fileSize_ne_zero (Nat.ne_of_gt (Nat.lt_of_lt_of_le (by decide) h.1))
  rw [hsize] at h
  exact ⟨⟨hname, h⟩, hmeasures, hsize⟩

theorem overwrite_of_length_eq {old new : Bytes} (h : new.length = old.length) : old.overwrite new = new := by
  rw [overwrite, h, drop_length, append_nil]

theorem effect_of_failed_backup (hfresh : ∀ f ∈ d.backups, f.1 ≠ backupName slot a.stamp) (hready : d.Ready)
    (hchecks : a.checks = .ok ()) (hmeasures : a.measures = true)
    (hfail : (a.backup.copyExact d.device d.device.length).ok = false) : Effect slot a d { d with
      backups := (a.backup.copyExact d.device d.device.length).toFile a.backup.unlinks (backupName slot a.stamp)
        d.backups } := by
  have hno : ¬ a.Saves := by
    intro hsaves
    rw [hsaves.backup.copyExact le_rfl] at hfail
    cases hfail
  have hopened := a.backup.copyExact_opened d.device d.device.length
  cases hcopied : a.backup.copyExact d.device d.device.length with
  | unopened => exact .nothing fun _ => hno
  | created =>
    rw [hcopied] at hopened
    rw [Copied.toFile, putFile_fresh [] hfresh]
    refine .left [] hready ⟨hchecks, hmeasures, hopened.1⟩ fun hgentle => ?_
    rw [hgentle.input hopened.1] at hopened
    cases hopened.2
  | stopped written =>
    rw [hcopied] at hopened
    rw [Copied.toFile]
    split_ifs with hunlinks
    · rw [removeFile_fresh hfresh]
      exact .nothing fun _ => hno
    · rw [putFile_fresh written hfresh]
      exact .left written hready ⟨hchecks, hmeasures, hopened.1⟩ fun hgentle => absurd hgentle.unlinks hunlinks
  | complete written =>
    rw [hcopied] at hfail
    cases hfail

theorem effect_of_flash {image : Bytes} (hready : d.Ready) (hreaches : a.Reaches) (himage : a.image = some image)
    (hlength : image.length = d.device.length) :
    Effect slot a d ((a.flash.copyExact image d.device.length).toBlock a.flash.unlinks
      { d with backups := d.backups ++ [(backupName slot a.stamp, d.device)] }) := by
  have hopened := a.flash.copyExact_opened image d.device.length
  have hwritten := a.flash.copyExact_written image d.device.length
  have hsome : a.image.isSome = true := by rw [himage]; rfl
  cases hcopied : a.flash.copyExact image d.device.length with
  | unopened | created => exact .left d.device hready hreaches fun _ => rfl
  | stopped written =>
    rw [hcopied] at hopened hwritten
    obtain ⟨m, hm, rfl⟩ := hwritten
    refine .torn _ hready ⟨hreaches, hsome, hopened.2, hopened.1⟩ (fun hgentle => ?_) ?_
    · have hsmooth := hgentle.flash hopened.2 hopened.1
      rw [hsmooth.copyExact hlength.ge] at hcopied
      cases hcopied
    · rw [length_take]
      omega
  | complete written =>
    rw [hcopied] at hopened hwritten
    obtain ⟨rfl, -⟩ := hwritten
    rw [← hlength, take_length] at hcopied ⊢
    rw [Copied.toBlock, overwrite_of_length_eq hlength]
    exact .flashed image hready ⟨hreaches, hsome, hopened.2, hopened.1⟩ hlength

theorem complete_of_ok {c : Copy} {source : Bytes} (h : (c.copyExact source source.length).ok = true) :
    c.copyExact source source.length = .complete source ∧ c.opensOutput = true := by
  have hopened := c.copyExact_opened source source.length
  have hwritten := c.copyExact_written source source.length
  cases hcopied : c.copyExact source source.length with
  | unopened | created | stopped written =>
    rw [hcopied] at h
    cases h
  | complete written =>
    rw [hcopied] at hopened hwritten
    rw [hwritten.1, take_length]
    exact ⟨rfl, hopened.1⟩

theorem flashPatched_effect (hfresh : ∀ f ∈ d.backups, f.1 ≠ backupName slot a.stamp) (hready : d.Ready)
    (hreaches : a.Reaches) :
    Triple (fun d' => d' = { d with backups := d.backups ++ [(backupName slot a.stamp, d.device)] })
      (flashPatched sha256 slot a d.device) (fun _ => Effect slot a d) fun _ => Effect slot a d := by
  have hleft : ∀ d', d' = { d with backups := d.backups ++ [(backupName slot a.stamp, d.device)] } →
      Effect slot a d d' := by
    rintro _ rfl
    exact .left d.device hready hreaches fun _ => rfl
  rw [flashPatched]
  by_cases hhash : a.hashesBackup = false
  · rw [if_pos hhash]
    refine triple_bind (R := fun _ => Effect slot a d) (triple_modify ?_) fun _ => triple_throw fun _ h => h
    rintro _ rfl
    split_ifs
    · rw [← putFile_fresh d.device hfresh, removeFile_putFile d.device hfresh]
      refine .nothing fun _ hsaves => ?_
      rw [hsaves.hashesBackup] at hhash
      cases hhash
    · exact hleft _ rfl
  · rw [if_neg hhash]
    refine triple_try (fun image himage => ?_) fun _ _ => hleft
    rw [require_ok_iff] at himage
    refine triple_check (fun hlength => ?_) fun _ => hleft
    refine triple_check (fun _ => ?_) fun _ => hleft
    refine triple_bind (R := fun _ => Effect slot a d) (triple_modify ?_) fun _ => ?_
    · rintro _ rfl
      exact effect_of_flash hready hreaches himage hlength
    exact triple_check (fun _ => triple_read) fun _ _ h => h

theorem patch_effect (hfresh : ∀ f ∈ d.backups, f.1 ≠ backupName slot a.stamp) :
    Effect slot a d ((patch sha256 slot a).start d).2 := by
  refine Triple.final (P := fun d' => d' = d) ?_ rfl
  refine triple_try (fun _ hchecks => triple_get ?_) fun e hchecks _ hd => ?_
  swap
  · rw [hd]
    exact .nothing fun _ hsaves => by rw [hsaves.checks] at hchecks; cases hchecks
  rintro d rfl
  refine triple_check (fun hsize => ?_) ?_
  · obtain ⟨hready, hmeasures, hfull⟩ := ready_of_fileSize hsize
    rw [hfull]
    refine triple_bind (R := fun _ d' => d' = { d with
      backups := (a.backup.copyExact d.device d.device.length).toFile a.backup.unlinks (backupName slot a.stamp)
        d.backups }) (triple_modify ?_) fun _ => triple_check (fun hok => ?_) ?_
    · rintro _ rfl
      rfl
    · obtain ⟨hcomplete, houtput⟩ := complete_of_ok hok
      rw [hcomplete, Copied.toFile, putFile_fresh d.device hfresh]
      exact flashPatched_effect hfresh hready ⟨hchecks, hmeasures, houtput⟩
    · rintro hfail _ rfl
      exact effect_of_failed_backup hfresh hready hchecks hmeasures (Bool.not_eq_true _ ▸ hfail)
  · rintro hsize _ rfl
    refine .nothing fun hready hsaves => hsize ?_
    rw [Disk.fileSize, hready.1, hsaves.measures]
    exact hready.2

theorem patch_image {image : Bytes} (hfresh : ∀ f ∈ d.backups, f.1 ≠ backupName slot a.stamp) (hready : d.Ready)
    (hsaves : a.Saves) (himage : a.image = some image) (hlength : image.length = d.device.length)
    (hhash : a.hashesImage = true ∧ sha256 image ≠ sha256 d.device) :
    ((patch sha256 slot a).start d).2 = (a.flash.copyExact image d.device.length).toBlock a.flash.unlinks
      { d with backups := d.backups ++ [(backupName slot a.stamp, d.device)] } := by
  obtain ⟨d₁, hd₁⟩ : ∃ d₁, (a.flash.copyExact image d.device.length).toBlock a.flash.unlinks
      { d with backups := d.backups ++ [(backupName slot a.stamp, d.device)] } = d₁ := ⟨_, rfl⟩
  rw [hd₁]
  refine Triple.final (P := fun d' => d' = d) (R := fun d' => d' = d₁) ?_ rfl
  have hsize : d.fileSize a.measures = d.device.length := by
    rw [Disk.fileSize, hready.1, hsaves.measures]
    rfl
  rw [patch, hsaves.checks]
  refine triple_try (fun _ _ => triple_get fun d' hd' => ?_) nofun
  rw [hd']
  refine triple_check (fun _ => ?_) fun hnot => absurd ?_ hnot
  · dsimp only
    rw [hsize, hsaves.backup.copyExact le_rfl, take_length]
    refine triple_bind (R := fun _ d' => d' = { d with backups := d.backups ++ [(backupName slot a.stamp, d.device)] })
      (triple_modify ?_) fun _ => triple_check (fun _ => ?_) fun hnot => absurd rfl hnot
    · intro d' hd'
      rw [hd', Copied.toFile, putFile_fresh d.device hfresh]
    · rw [flashPatched, if_neg (by rw [hsaves.hashesBackup]; decide), himage]
      refine triple_try (fun _ himage' => ?_) nofun
      cases himage'
      refine triple_check (fun _ => ?_) fun hnot => absurd hlength hnot
      refine triple_check (fun _ => ?_) fun hnot => absurd hhash hnot
      refine triple_bind (R := fun _ d' => d' = d₁) (triple_modify ?_) fun _ => ?_
      · rintro _ rfl
        exact hd₁
      · exact triple_check (fun _ => triple_read) fun _ _ h => h
  · rw [hsize]
    exact hready.2

end AeraRecovery.Root
