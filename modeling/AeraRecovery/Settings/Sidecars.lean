import AeraRecovery.Settings.CrashConsistency

namespace AeraRecovery.Settings.Sidecars

open Lib Bytes Crash Directory Repair Restore Stage Replace CrashConsistency Function List

def SameSidecars (d t : Dir) : Prop := ∀ s, t (.sidecar s) = d (.sidecar s)

theorem SameSidecars.refl (d : Dir) : SameSidecars d d := fun _ => rfl

theorem SameSidecars.trans (d t u : Dir) (h : SameSidecars d t) (h' : SameSidecars t u) : SameSidecars d u :=
  fun s => (h' s).trans (h s)

variable {d : Dir}

theorem sameSidecars_update {e : Entry} (he : ∀ s, e ≠ .sidecar s) (n : Option Node) :
    SameSidecars d (update d e n) := fun s => update_of_ne (he s).symm ..

abbrev Spares {α : Type} (p : Prog Dir α) : Prop := Stays SameSidecars p

theorem spares_pure {α : Type} (a : α) : Spares (pure a) := stays_pure SameSidecars.refl a

theorem Spares.bind {α β : Type} {p : Prog Dir α} {f : α → Prog Dir β} (hp : Spares p) (hf : ∀ a, Spares (f a)) :
    Spares (p >>= f) := Stays.bind SameSidecars.trans hp hf

variable (e : Entry)

theorem spares_unlinkat (he : ∀ s, e ≠ .sidecar s) : Spares (unlinkat e) := by
  refine stays_mutate SameSidecars.refl fun d => ?_
  split
  · exact .refl d
  · exact .refl d
  · exact sameSidecars_update he none

theorem spares_renameat (a b : Entry) (ha : ∀ s, a ≠ .sidecar s) (hb : ∀ s, b ≠ .sidecar s) :
    Spares (renameat a b) := by
  refine stays_mutate SameSidecars.refl fun d => ?_
  split
  · exact .refl d
  · exact .refl d
  · exact .refl d
  · exact .refl d
  · exact (sameSidecars_update ha none).trans _ _ _ (sameSidecars_update hb _)

theorem spares_createExclusive (he : ∀ s, e ≠ .sidecar s) (ok : Bool) : Spares (createExclusive e ok) := by
  refine stays_mutate SameSidecars.refl fun d => ?_
  split
  · split
    · exact sameSidecars_update he _
    · exact .refl d
  · exact .refl d

theorem spares_append (he : ∀ s, e ≠ .sidecar s) (bytes : Bytes) : Spares (append e bytes) := by
  refine stays_mutate SameSidecars.refl fun d => ?_
  split
  · exact sameSidecars_update he _
  · exact .refl d

theorem spares_fstatat : Spares (fstatat e) := stays_observe SameSidecars.refl _

theorem spares_pathExists : Spares (pathExists e) := stays_observe SameSidecars.refl _

theorem spares_removeStagedFiles (fs : List File) : Spares (removeStagedFiles fs) := by
  induction fs with
  | nil => exact spares_pure ()
  | cons f fs ih =>
    refine (spares_unlinkat (.staged f) nofun).bind fun _ => ?_
    exact (spares_unlinkat (.stagedTemporary f) nofun).bind fun _ => ih

theorem spares_repairFile (interrupted : Bool) (f : File) : Spares (repairFile interrupted f) := by
  have hrename : Spares (do pure (← renameat (.previous f) (.live f)).isNone : Prog Dir Bool) :=
    (spares_renameat (.previous f) (.live f) nofun nofun).bind fun _ => spares_pure _
  refine (spares_fstatat _).bind fun r => ?_
  split
  · exact spares_pure _
  · exact spares_pure _
  · refine stays_ite ?_ ?_
    · exact (spares_unlinkat (.live f) nofun).bind fun _ => stays_ite (spares_pure _) hrename
    · refine (spares_fstatat _).bind fun r => ?_
      split
      · exact (spares_unlinkat (.previous f) nofun).bind fun _ => spares_pure _
      · exact stays_ite (spares_pure _) hrename

theorem spares_repairFiles (interrupted : Bool) (fs : List File) : Spares (repairFiles interrupted fs) := by
  induction fs with
  | nil => exact spares_pure true
  | cons f fs ih => exact (spares_repairFile interrupted f).bind fun _ => stays_ite ih (spares_pure _)

variable (io : Io)

theorem spares_repairInterruptedRestore : Spares (repairInterruptedRestore io) := by
  refine (spares_removeStagedFiles _).bind fun _ => (spares_pathExists _).bind fun interrupted => ?_
  refine (spares_repairFiles _ _).bind fun _ => stays_ite (stays_ite ?_ (spares_pure _)) (spares_pure _)
  exact (spares_unlinkat .marker nofun).bind fun _ => stays_ite (spares_pure _) (spares_pure _)

theorem spares_copyBuffers (f : File) (maximum index total : Nat) (bufs : List Bytes) :
    Spares (copyBuffers io f maximum index total bufs) := by
  induction bufs generalizing index total with
  | nil => exact spares_pure _
  | cons buffer rest ih =>
    refine stays_ite (spares_pure _) (stays_ite (spares_pure _) ?_)
    exact (spares_append (.stagedTemporary f) nofun _).bind fun _ => ih _ _

theorem spares_copyBounded (source : Option Node) (f : File) (maximum : Nat) (validation : Validation) :
    Spares (copyBounded io source f maximum validation) := by
  rw [copyBounded]
  split
  · exact spares_pure _
  · have hunlink := spares_unlinkat (.stagedTemporary f) (by simp)
    refine hunlink.bind fun _ => (spares_createExclusive (.stagedTemporary f) (by simp) _).bind fun _ => ?_
    refine stays_ite (stays_ite (hunlink.bind fun _ => spares_pure _) ?_) (spares_pure _)
    refine (spares_copyBuffers io f maximum 0 0 _).bind fun r => ?_
    split
    · exact spares_pure _
    · refine stays_ite (spares_pure _) ((spares_renameat (.stagedTemporary f) (.staged f) (by simp) (by simp)).bind fun _ => ?_)
      exact stays_ite (hunlink.bind fun _ => spares_pure _) (spares_pure _)

variable (snapshot : Snapshot)

theorem spares_stageFiles (validation : Validation) (fs : List File) :
    Spares (stageFiles io snapshot validation fs) := by
  induction fs with
  | nil => exact spares_pure true
  | cons f fs ih =>
    refine (spares_copyBounded io _ f _ _).bind fun _ => stays_ite ih ?_
    exact (spares_removeStagedFiles _).bind fun _ => spares_pure _

theorem spares_createRestoreMarker : Spares (createRestoreMarker io) :=
  (spares_unlinkat .marker nofun).bind fun _ => (spares_createExclusive .marker nofun _).bind fun _ =>
    stays_ite (spares_pure _) (spares_pure _)

theorem spares_renameBack (fs : List File) : Spares (renameBack fs) := by
  induction fs with
  | nil => exact spares_pure ()
  | cons f fs ih => exact (spares_renameat (.previous f) (.live f) nofun nofun).bind fun _ => ih

theorem spares_unlinkLive (fs : List File) : Spares (unlinkLive fs) := by
  induction fs with
  | nil => exact spares_pure ()
  | cons f fs ih => exact (spares_unlinkat (.live f) nofun).bind fun _ => ih

theorem spares_abandon : Spares abandon :=
  (spares_unlinkat .marker nofun).bind fun _ => (spares_removeStagedFiles _).bind fun _ => spares_pure _

theorem spares_saveFiles (saved fs : List File) : Spares (saveFiles saved fs) := by
  induction fs generalizing saved with
  | nil => exact spares_pure true
  | cons f fs ih =>
    refine (spares_renameat (.live f) (.previous f) nofun nofun).bind fun _ => stays_ite ?_ (ih _)
    exact (spares_renameBack _).bind fun _ => spares_abandon

theorem spares_installFiles (targets installed fs : List File) : Spares (installFiles targets installed fs) := by
  induction fs generalizing installed with
  | nil => exact spares_pure true
  | cons f fs ih =>
    refine (spares_renameat (.staged f) (.live f) nofun nofun).bind fun _ => stays_ite ?_ (ih _)
    exact (spares_unlinkLive _).bind fun _ => (spares_renameBack _).bind fun _ => spares_abandon

def prepareFiles : Prog Dir Bool :=
  if ¬ androidSettingsFiles.all fun f =>
      (validSource (snapshot.file f) maximumAndroidSettingsBytes .settingsXml).isSome then pure false
  else if validSource (snapshot.file .lineage) maximumAndroidSettingsBytes .sqlite = none then pure false
  else do
    if ← repairInterruptedRestore io then
      if ← stageFiles io snapshot .settingsXml androidSettingsFiles then
        if ← stageFiles io snapshot .sqlite [.lineage] then
          if ← createRestoreMarker io then
            if ← saveFiles [] managedFiles then installFiles managedFiles [] managedFiles else pure false
          else do
            removeStagedFiles managedFiles
            pure false
        else pure false
      else pure false
    else pure false

theorem ite_bind {α β : Type} {c : Prop} [Decidable c] (p q : Prog Dir α) (f : α → Prog Dir β) :
    (if c then p else q) >>= f = if c then p >>= f else q >>= f := by
  by_cases h : c
  · rw [if_pos h, if_pos h]
  · rw [if_neg h, if_neg h]

theorem restoreAndroidSettings_eq {io : Io} {snapshot : Snapshot} (h : readAndroidManifest snapshot = some true) :
    restoreAndroidSettings io snapshot =
      prepareFiles io snapshot >>= fun ok => if ok then commitFiles io true else pure false := by
  have hpure : ∀ (b : Bool) (f : Bool → Prog Dir Bool), pure b >>= f = f b := fun _ _ => rfl
  have htargets : targetFiles true = managedFiles := rfl
  simp only [restoreAndroidSettings, h, prepareFiles, replaceFiles, ite_bind, bind_bind, hpure, htargets,
    Bool.false_eq_true, if_false, if_true, true_and]

theorem prepareFiles_safe {old : File → Option Node} (hd : StandsFor old d) :
    Safe (StandsFor old) (prepareFiles io snapshot) d fun ok t =>
      if ok then Installing old snapshot managedFiles managedFiles t else StandsFor old t := by
  refine safe_ite (fun _ => safe_pure hd) fun _ => safe_ite (fun _ => safe_pure hd) fun _ => ?_
  refine safe_bind (repairInterruptedRestore_safe io hd) ?_
  rintro ok t ⟨ht, hclean⟩
  refine safe_ite (fun _ => ?_) fun _ => safe_pure ht
  have hstage : Staging old snapshot [] t :=
    ⟨ht.1, fun f => by rw [← committed_clean hclean f, ht.2], hclean.previous, hclean.marker, by simp⟩
  refine safe_bind (stageFiles_safe io .settingsXml androidSettingsFiles [] t hstage) ?_
  rintro ok u ⟨hu, hok⟩
  refine safe_ite (fun hc => ?_) fun _ => safe_pure hu
  refine safe_bind (stageFiles_safe io .sqlite _ _ u (hok hc)) ?_
  rintro ok v ⟨hv, hok⟩
  refine safe_ite (fun hc => ?_) fun _ => safe_pure hv
  refine safe_bind (createRestoreMarker_safe io (hok hc)) ?_
  rintro ok w ⟨hw, hok⟩
  refine safe_ite (fun hc => ?_) fun _ => ?_
  · refine safe_bind (saveFiles_safe managedFiles managedFiles [] w (by decide) (hok hc)) ?_
    rintro ok x ⟨hx, hok⟩
    refine safe_ite (fun hc => ?_) fun _ => safe_pure hx
    refine (installFiles_safe managedFiles managedFiles [] x (by decide) (fun _ hf => hf) (hok hc).installing).imp ?_
    rintro ok y ⟨rfl, hy⟩
    exact hy
  · refine safe_bind (removeStagedFiles_safe managedFiles w hw.1 fun x hx hcore => hcore.standsFor hx hw) ?_
    rintro _ x ⟨hx, hcore, -⟩
    exact safe_pure (hcore.standsFor hx hw)

theorem spares_prepareFiles : Spares (prepareFiles io snapshot) := by
  refine stays_ite (spares_pure _) (stays_ite (spares_pure _) ?_)
  refine (spares_repairInterruptedRestore io).bind fun _ => stays_ite ?_ (spares_pure _)
  refine (spares_stageFiles io snapshot _ _).bind fun _ => stays_ite ?_ (spares_pure _)
  refine (spares_stageFiles io snapshot _ _).bind fun _ => stays_ite ?_ (spares_pure _)
  refine (spares_createRestoreMarker io).bind fun _ => stays_ite ?_ ?_
  · exact (spares_saveFiles _ _).bind fun _ => stays_ite (spares_installFiles _ _ _) (spares_pure _)
  · exact (spares_removeStagedFiles _).bind fun _ => spares_pure _

def cleanUp : List Entry := managedFiles.map .previous ++ [.sidecar .wal, .sidecar .shm, .sidecar .journal]

def removed (es : List Entry) (d : Dir) : Dir := es.foldl (fun d e => update d e none) d

theorem removed_apply (es : List Entry) (d : Dir) (e : Entry) : removed es d e = if e ∈ es then none else d e := by
  induction es generalizing d with
  | nil => simp [removed]
  | cons e' es ih =>
    refine (ih _).trans ?_
    by_cases he : e = e'
    · simp [he]
    · simp [he]

def unlinkAll : List Entry → Prog Dir Unit
  | [] => pure ()
  | e :: es => do
      let _ ← unlinkat e
      unlinkAll es

theorem crashPoint_unlinkAll {es : List Entry} {t : Dir} (hd : Regular d) (h : CrashPoint (unlinkAll es) d t) :
    ∃ n ≤ es.length, t = removed (es.take n) d := by
  induction es generalizing d with
  | nil =>
    rcases h with h | rfl
    · cases h
    · exact ⟨0, le_rfl, rfl⟩
  | cons e es ih =>
    have hfinal : (unlinkat e d).final = update d e none :=
      (safe_unlinkat_ignored (C := fun _ => True) (Q := fun _ t => t = update d e none) trivial hd
        fun _ => rfl).2
    rcases crashPoint_bind.mp h with h | h
    · exact ⟨0, Nat.zero_le _, mem_singleton.mp h⟩
    · rw [hfinal] at h
      have hregular : Regular (update d e none) := regular_update hd e nofun
      obtain ⟨n, hn, rfl⟩ := ih hregular h
      exact ⟨n + 1, Nat.succ_le_succ hn, rfl⟩

theorem unlinkAll_append (es es' : List Entry) : (do unlinkAll es; unlinkAll es') = unlinkAll (es ++ es') := by
  induction es with
  | nil => rfl
  | cons e es ih => rw [unlinkAll, bind_bind, cons_append, unlinkAll, ← ih]

/-- The restore was stopped, or failed, after the removal of the marker and `n` of the entries behind it. -/
structure StoppedAfter (io : Io) (snapshot : Snapshot) (d : Dir) (n : Nat) (t : Dir) : Prop where
  prepared : (prepareFiles io snapshot d).value = true
  synced : io .syncInstalled = true
  continued : n = 0 ∨ io .syncCommitted = true
  state : t = removed (cleanUp.take n) (update (prepareFiles io snapshot d).final .marker none)

theorem commitFiles_eq : commitFiles io true = if ¬ io .syncInstalled then pure false
    else unlinkat .marker >>= fun status =>
      if status ≠ none ∨ ¬ io .syncCommitted then pure false
      else unlinkAll cleanUp >>= fun _ => pure (io .syncCleaned) := by
  have hall : (unlinkPrevious managedFiles >>= fun _ => unlinkSidecars) = unlinkAll cleanUp := by
    exact unlinkAll_append (managedFiles.map .previous) [.sidecar .wal, .sidecar .shm, .sidecar .journal]
  rw [← hall]
  rfl

theorem crashPoint_commitFiles {io : Io} {t : Dir} (hd : Regular d) (hmarker : (d .marker).isSome)
    (h : CrashPoint (commitFiles io true) d t) : t = d ∨ io .syncInstalled = true ∧
      ∃ n, (n = 0 ∨ io .syncCommitted = true) ∧ t = removed (cleanUp.take n) (update d .marker none) := by
  have hpure : ∀ (b : Bool) {d : Dir}, CrashPoint (pure b) d t → t = d := by
    rintro b d (h | h)
    · cases h
    · exact h
  have hunlink : (unlinkat .marker d).value = none ∧ (unlinkat .marker d).final = update d .marker none :=
    (safe_unlinkat (C := fun _ => True) (Q := fun status t => status = none ∧ t = update d .marker none)
      trivial hd (fun hnone => by simp [hnone] at hmarker) fun _ => ⟨rfl, rfl⟩).2
  rw [commitFiles_eq] at h
  by_cases hsync : io .syncInstalled = true
  · rw [if_neg (not_not.mpr hsync)] at h
    rcases crashPoint_bind.mp h with h | h
    · exact .inl (mem_singleton.mp h)
    rw [hunlink.1, hunlink.2] at h
    refine .inr ⟨hsync, ?_⟩
    by_cases hcommitted : io .syncCommitted = true
    · rw [if_neg (by simp [hcommitted])] at h
      have hregular : Regular (update d .marker none) := regular_update hd _ nofun
      have hclean : CrashPoint (unlinkAll cleanUp) (update d .marker none) t := by
        rcases crashPoint_bind.mp h with h | h
        · exact .inl h
        · exact .inr (hpure _ h)
      obtain ⟨n, -, hn⟩ := crashPoint_unlinkAll hregular hclean
      exact ⟨n, .inr hcommitted, hn⟩
    · rw [if_pos (.inr hcommitted)] at h
      exact ⟨0, .inl rfl, hpure _ h⟩
  · rw [if_pos hsync] at h
    exact .inl (hpure _ h)

theorem Committed.removed {new : File → Option Node} {targets : List File} (h : Committed new targets d)
    (n : Nat) : Committed new targets (removed (cleanUp.take n) d) := by
  have hlive : ∀ f, .live f ∉ cleanUp := by
    intro f
    cases f <;> decide
  refine ⟨fun e => ?_, ?_, fun f => ?_, h.installed, fun f hf => ?_⟩
  · rw [removed_apply]
    split
    · exact nofun
    · exact h.regular e
  · rw [removed_apply, h.marker, ite_self]
  · rw [removed_apply, if_neg fun hmem => hlive f (mem_of_mem_take hmem)]
    exact h.live f
  · rw [removed_apply, h.previous f hf, ite_self]

theorem repairs_sidecars {t₀ t : Dir} (io : Io)
    (hrepairs : Relation.ReflTransGen (fun a b => ∃ io, CrashPoint (repairInterruptedRestore io) a b) t₀ t) :
    SameSidecars t₀ (repairInterruptedRestore io t).final := by
  have hstep : ∀ io s, SameSidecars t₀ s →
      Safe (SameSidecars t₀) (repairInterruptedRestore io) s fun _ => SameSidecars t₀ := by
    intro io s hs
    exact ((spares_repairInterruptedRestore io s).mono fun u => hs.trans _ _ u).imp fun _ u => hs.trans _ _ u
  have ht : SameSidecars t₀ t := interrupted_runs hstep (.refl t₀) hrepairs
  exact ht.trans _ _ _ (spares_repairInterruptedRestore io t).2

/-- Before the marker is removed the database and its side files are the previous ones. From then on the database is
the snapshot's, and no side file is left next to it exactly if each one that there was had been removed by then. -/
theorem restore_sidecars (io io' : Io) {snapshot : Snapshot} (hlineage : readAndroidManifest snapshot = some true)
    {d t₀ t : Dir} (hd : Regular d) (hrestore : CrashPoint (restoreAndroidSettings io snapshot) d t₀)
    (hrepairs : Relation.ReflTransGen (fun a b => ∃ io, CrashPoint (repairInterruptedRestore io) a b) t₀ t) :
    let e := (repairInterruptedRestore io' t).final
    ((∀ n, ¬ StoppedAfter io snapshot d n t₀) →
      (∀ f, e (.live f) = committed d f) ∧ ∀ s, e (.sidecar s) = d (.sidecar s)) ∧
    ∀ n, StoppedAfter io snapshot d n t₀ → (∀ f, e (.live f) = snapshot.file f) ∧
        ((∀ s, e (.sidecar s) = none) ↔ ∀ s, d (.sidecar s) ≠ none → .sidecar s ∈ cleanUp.take n) := by
  intro e
  have hsafe := prepareFiles_safe io snapshot ⟨hd, rfl⟩
  have hspares := spares_prepareFiles io snapshot d
  have hsame : SameSidecars t₀ e := repairs_sidecars io' hrepairs
  constructor
  · intro hnot
    suffices h : StandsFor (committed d) t₀ ∧ SameSidecars d t₀ from
      ⟨(repairs_settle io' h.1 hrepairs).1, fun s => (hsame s).trans (h.2 s)⟩
    rw [restoreAndroidSettings_eq hlineage] at hrestore
    rcases crashPoint_bind.mp hrestore with h | h
    · exact ⟨hsafe.1 t₀ h, hspares.1 t₀ h⟩
    · have hfinal := hsafe.2
      cases hvalue : (prepareFiles io snapshot d).value with
      | false =>
        rw [hvalue] at h hfinal
        rcases h with h | rfl
        · cases h
        · exact ⟨hfinal, hspares.2⟩
      | true =>
        rw [hvalue] at h hfinal
        have hinstalling : Installing (committed d) snapshot managedFiles managedFiles _ := hfinal
        rcases crashPoint_commitFiles hinstalling.regular hinstalling.marker h with rfl | ⟨hsync, n, hn, hstate⟩
        · exact ⟨hinstalling.standsFor, hspares.2⟩
        · exact absurd ⟨hvalue, hsync, hn, hstate⟩ (hnot n)
  · rintro n ⟨hvalue, -, -, rfl⟩
    have hfinal := hsafe.2
    rw [hvalue] at hfinal
    have hinstalling : Installing (committed d) snapshot managedFiles managedFiles _ := hfinal
    have hstands := (Committed.removed hinstalling.commit n).standsFor
    refine ⟨fun f => ?_, ?_⟩
    · exact ((repairs_settle io' hstands hrepairs).1 f).trans (if_pos (mem_managedFiles f))
    · have hside : ∀ s, e (.sidecar s) = if .sidecar s ∈ cleanUp.take n then none else d (.sidecar s) := by
        intro s
        rw [hsame s, removed_apply, update_of_ne (by simp), hspares.2 s]
      refine forall_congr' fun s => ?_
      rw [hside s]
      split_ifs with h
      · simp [h]
      · simp [h]

def walSettings : Dir
  | .live _ => some (.file [1])
  | .sidecar .wal => some (.file [2])
  | _ => none

def lineageSnapshot : Snapshot where
  manifest := some (.file androidManifestWithLineage)
  file
    | .lineage => some (.file (ascii "SQLite format 3" ++ replicate 85 0))
    | _ => some (.file (ascii "<?xml<settings</settings>"))

theorem walSettings_regular : Regular walSettings := by
  intro e
  cases e with
  | sidecar s => cases s <;> simp [walSettings]
  | _ => simp [walSettings]

/-- Stopped before its end, while the marker is there, the restore leaves the previous files and their log. -/
theorem restore_sidecars_interrupted : ∃ t, CrashPoint (restoreAndroidSettings allSucceed lineageSnapshot) walSettings t ∧
      t .marker ≠ none ∧ let e := (repairInterruptedRestore allSucceed t).final
        (∀ f, e (.live f) = committed walSettings f) ∧ ∀ s, e (.sidecar s) = walSettings (.sidecar s) := by
  let passed := (restoreAndroidSettings allSucceed lineageSnapshot walSettings).passed
  have hlineage : readAndroidManifest lineageSnapshot = some true := by decide +kernel
  have ht : CrashPoint (restoreAndroidSettings allSucceed lineageSnapshot) walSettings (passed.getD 30 walSettings) :=
    crashPoint_getD (by decide +kernel)
  obtain ⟨hbefore, hafter⟩ := restore_sidecars allSucceed allSucceed hlineage walSettings_regular ht .refl
  refine ⟨_, ht, by decide +kernel, hbefore fun n hn => ?_⟩
  exact absurd ((hafter n hn).1 .system) (by decide +kernel)

/-- Stopped right after the marker is gone, the snapshot's database is live next to the log of the previous one, and no
repair removes it. -/
theorem restore_keeps_stale_log : ∃ t, CrashPoint (restoreAndroidSettings allSucceed lineageSnapshot) walSettings t ∧
      let e := (repairInterruptedRestore allSucceed t).final
      e (.live .lineage) = lineageSnapshot.file .lineage ∧ e (.live .lineage) ≠ walSettings (.live .lineage) ∧
        e (.sidecar .wal) = walSettings (.sidecar .wal) ∧ e (.sidecar .wal) ≠ none := by
  let passed := (restoreAndroidSettings allSucceed lineageSnapshot walSettings).passed
  have hlength : passed.length - 7 < passed.length := by decide +kernel
  exact ⟨passed.getD (passed.length - 7) walSettings, crashPoint_getD hlength, by decide +kernel⟩

end AeraRecovery.Settings.Sidecars
