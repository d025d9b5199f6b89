import AeraRecovery.Settings.Replace

namespace AeraRecovery.Settings.CrashConsistency

open Lib Bytes Crash Directory Repair Restore Stage Replace

variable {old : File → Option Node} {snapshot : Snapshot} {d t : Dir}

/-- What a completed restore leaves: the snapshot's contents for the files it
covers, everything else as it was. -/
def restored (snapshot : Snapshot) (old : File → Option Node) (f : File) : Option Node :=
  match readAndroidManifest snapshot with
  | some lineageSettings => if f ∈ targetFiles lineageSettings then snapshot.file f else old f
  | none => old f

def Recoverable (old new : File → Option Node) (d : Dir) : Prop := StandsFor old d ∨ StandsFor new d

theorem targetFiles_nodup (lineageSettings : Bool) : (targetFiles lineageSettings).Nodup := by
  cases lineageSettings <;> decide

section

variable (io : Io) {lineageSettings : Bool} {new : File → Option Node}
  (hnew : new = fun f => if f ∈ targetFiles lineageSettings then snapshot.file f else old f)

include hnew

theorem commitFiles_safe (h : Installing old snapshot (targetFiles lineageSettings) (targetFiles lineageSettings) d) :
    Safe (Recoverable old new) (commitFiles io lineageSettings) d fun _ t => Recoverable old new t := by
  have hcommit : Committed new (targetFiles lineageSettings) (Function.update d .marker none) := hnew ▸ h.commit
  refine safe_ite (fun _ => safe_pure (.inl h.standsFor)) fun _ => ?_
  refine safe_bind (R := fun _ t => Committed new (targetFiles lineageSettings) t)
    (safe_unlinkat_ignored (.inl h.standsFor) h.regular fun _ => hcommit) ?_
  intro status t ht
  refine safe_ite (fun _ => safe_pure (.inr ht.standsFor)) fun _ => ?_
  refine safe_bind ((unlinkPrevious_safe _ t ht).mono fun _ => .inr) fun _ u hu => ?_
  cases lineageSettings with
  | false => exact safe_pure (.inr hu)
  | true =>
    exact safe_bind ((unlinkSidecars_safe hu).mono fun _ => .inr) fun _ v hv => safe_pure (.inr hv)

theorem replaceFiles_safe (h : Saving old snapshot (targetFiles lineageSettings) [] d) :
    Safe (Recoverable old new) (replaceFiles io lineageSettings) d fun _ t => Recoverable old new t := by
  have hnodup := targetFiles_nodup lineageSettings
  have hsave := saveFiles_safe (targetFiles lineageSettings) (targetFiles lineageSettings) [] d
    (by simpa using hnodup) h
  refine safe_bind (hsave.mono fun _ => .inl) ?_
  rintro ok t ⟨ht, hok⟩
  cases ok with
  | false => exact safe_pure (.inl ht)
  | true =>
    have hinstall := installFiles_safe (targetFiles lineageSettings) (targetFiles lineageSettings) [] t
      (by simpa using hnodup) (fun _ hf => hf) (hok rfl).installing
    refine safe_bind (hinstall.mono fun _ => .inl) ?_
    rintro ok u ⟨rfl, hu⟩
    exact commitFiles_safe io hnew hu

end

theorem restoreAndroidSettings_safe (io : Io) (hd : StandsFor old d) :
    Safe (Recoverable old (restored snapshot old)) (restoreAndroidSettings io snapshot) d fun _ t =>
      Recoverable old (restored snapshot old) t := by
  cases hman : readAndroidManifest snapshot with
  | none =>
    simp only [restoreAndroidSettings, hman]
    exact safe_pure (.inl hd)
  | some lineageSettings =>
    have hnew : restored snapshot old =
        fun f => if f ∈ targetFiles lineageSettings then snapshot.file f else old f := by
      funext f
      simp only [restored, hman]
    simp only [restoreAndroidSettings, hman]
    refine safe_ite (fun _ => safe_pure (.inl hd)) fun _ => ?_
    refine safe_ite (fun _ => safe_pure (.inl hd)) fun _ => ?_
    refine safe_bind ((repairInterruptedRestore_safe io hd).mono fun _ => .inl) ?_
    rintro ok t ⟨ht, hclean⟩
    refine safe_ite (fun _ => ?_) fun _ => safe_pure (.inl ht)
    have hstage : Staging old snapshot [] t :=
      ⟨ht.1, fun f => by rw [← committed_clean hclean f, ht.2], hclean.previous, hclean.marker, by simp⟩
    refine safe_bind ((stageFiles_safe io .settingsXml androidSettingsFiles [] t hstage).mono fun _ => .inl) ?_
    rintro ok u ⟨hu, hok⟩
    refine safe_ite (fun hc => ?_) fun _ => safe_pure (.inl hu)
    refine safe_bind ((stageFiles_safe io .sqlite _ _ u (hok hc)).mono fun _ => .inl) ?_
    rintro ok v ⟨hv, hok⟩
    refine safe_ite (fun hc => ?_) fun _ => safe_pure (.inl hv)
    have htargets : [] ++ androidSettingsFiles ++ (if lineageSettings then [.lineage] else []) =
        targetFiles lineageSettings := by cases lineageSettings <;> rfl
    have hall := hok hc
    rw [htargets] at hall
    refine safe_bind ((createRestoreMarker_safe io hall).mono fun _ => .inl) ?_
    rintro ok w ⟨hw, hok⟩
    refine safe_ite (fun hc => replaceFiles_safe io hnew (hok hc)) fun _ => ?_
    refine safe_bind ((removeStagedFiles_safe managedFiles w hw.1 fun x hx hcore =>
      hcore.standsFor hx hw).mono fun _ => .inl) ?_
    rintro _ x ⟨hx, hcore, -⟩
    exact safe_pure (.inl (hcore.standsFor hx hw))

theorem repairs_settle {c : File → Option Node} {t₀ t : Dir} (io : Io) (h : StandsFor c t₀)
    (hrepairs : Relation.ReflTransGen (fun a b => ∃ io, CrashPoint (repairInterruptedRestore io) a b) t₀ t) :
    let e := (repairInterruptedRestore io t).final
    (∀ f, e (.live f) = c f) ∧ Clean e ∧ Regular e := by
  have ht : StandsFor c t := interrupted_runs
    (fun io s hs => (repairInterruptedRestore_safe io hs).imp fun _ _ h => h.1) h hrepairs
  obtain ⟨hstands, hclean⟩ := (repairInterruptedRestore_safe io ht).2
  exact ⟨fun f => (committed_clean hclean f).symm.trans (congrFun hstands.2 f), hclean, hstands.1⟩

/-- Stop the restore behind any prefix of its mutations, then any number of
repairs in the same way: the next repair that runs to its end leaves the files
of before the restore or the restored ones, nothing in between and no traces.
In a directory without leftovers, "before" is just what its files hold. -/
theorem restore_crash_consistent (io io' : Io) (snapshot : Snapshot) {d t₀ t : Dir} (hd : Regular d)
    (hrestore : CrashPoint (restoreAndroidSettings io snapshot) d t₀)
    (hrepairs : Relation.ReflTransGen (fun a b => ∃ io, CrashPoint (repairInterruptedRestore io) a b) t₀ t) :
    let e := (repairInterruptedRestore io' t).final
    ((∀ f, e (.live f) = committed d f) ∨ ∀ f, e (.live f) = restored snapshot (committed d) f) ∧
      Clean e ∧ (∀ io'', (repairInterruptedRestore io'' e).final = e) ∧
      (Clean d → ∀ f, committed d f = d (.live f)) := by
  intro e
  have hcrash : Recoverable (committed d) (restored snapshot (committed d)) t₀ :=
    (restoreAndroidSettings_safe io ⟨hd, rfl⟩).crashPoint (fun _ _ h => h) hrestore
  have hfinal (c : File → Option Node) (hc : StandsFor c t₀) : (∀ f, e (.live f) = c f) ∧ Clean e ∧ Regular e :=
    repairs_settle io' hc hrepairs
  have hclean : Clean e ∧ Regular e := by
    rcases hcrash with h | h
    · exact (hfinal _ h).2
    · exact (hfinal _ h).2
  refine ⟨?_, hclean.1, fun io'' => repairInterruptedRestore_clean io'' hclean.1 hclean.2,
    fun h f => committed_clean h f⟩
  rcases hcrash with h | h
  · exact .inl (hfinal _ h).1
  · exact .inr (hfinal _ h).1

/-- A device with all four files, and a snapshot taken where no Lineage
database existed. -/
def liveSettings : Dir
  | .live _ => some (.file [1])
  | _ => none

def xmlSnapshot : Snapshot where
  manifest := some (.file androidManifestWithoutLineage)
  file
    | .lineage => none
    | _ => some (.file (ascii "<?xml<settings</settings>"))

def allSucceed : Io := fun _ => true

theorem liveSettings_regular : Regular liveSettings := by
  intro e
  cases e <;> simp [liveSettings]

/-- The restore is stopped while its marker is there, and so is a first repair. -/
theorem restore_crash_consistent_interrupted : ∃ t u, CrashPoint (restoreAndroidSettings allSucceed xmlSnapshot)
      liveSettings t ∧ t .marker ≠ none ∧ CrashPoint (repairInterruptedRestore allSucceed) t u ∧ u .marker ≠ none ∧
        Clean (repairInterruptedRestore allSucceed u).final := by
  let passed := (restoreAndroidSettings allSucceed xmlSnapshot liveSettings).passed
  let t := passed.getD 25 liveSettings
  let repaired := (repairInterruptedRestore allSucceed t).passed
  have ht : CrashPoint (restoreAndroidSettings allSucceed xmlSnapshot) liveSettings t :=
    crashPoint_getD (by decide +kernel)
  have hu : CrashPoint (repairInterruptedRestore allSucceed) t (repaired.getD 3 t) := crashPoint_getD (by decide +kernel)
  exact ⟨t, _, ht, by decide +kernel, hu, by decide +kernel,
    (restore_crash_consistent allSucceed allSucceed xmlSnapshot liveSettings_regular ht (.single ⟨_, hu⟩)).2.1⟩

/-- The files are not always all old or all from the snapshot: a restore that
ran to its end keeps a Lineage database the snapshot does not cover. -/
theorem restore_keeps_uncovered_lineage : Clean liveSettings ∧ readAndroidManifest xmlSnapshot = some false ∧
      let e := (repairInterruptedRestore allSucceed
        (restoreAndroidSettings allSucceed xmlSnapshot liveSettings).final).final
      ¬ ((∀ f, e (.live f) = liveSettings (.live f)) ∨ ∀ f, e (.live f) = xmlSnapshot.file f) := by
  have hrun : readAndroidManifest xmlSnapshot = some false ∧ (repairInterruptedRestore allSucceed
        (restoreAndroidSettings allSucceed xmlSnapshot liveSettings).final).final (.live .system) ≠
          liveSettings (.live .system) ∧
      (repairInterruptedRestore allSucceed
        (restoreAndroidSettings allSucceed xmlSnapshot liveSettings).final).final (.live .lineage) ≠
          xmlSnapshot.file .lineage := by decide +kernel
  refine ⟨⟨fun _ => rfl, fun _ => rfl, fun _ => rfl, rfl⟩, hrun.1, ?_⟩
  intro e h
  rcases h with h | h
  · exact hrun.2.1 (h .system)
  · exact hrun.2.2 (h .lineage)

end AeraRecovery.Settings.CrashConsistency
