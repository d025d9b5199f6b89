import AeraRecovery.Settings.Stage

namespace AeraRecovery.Settings.Replace

open Lib.Crash Directory Repair Restore Stage Function List

variable {old : File → Option Node} {snapshot : Snapshot} {d t : Dir} {f : File}

/-- Between marker creation and the first install: `saved` files have moved to
their saved name, all others are still live. -/
structure Saving (old : File → Option Node) (snapshot : Snapshot) (targets saved : List File) (d : Dir) : Prop where
  regular : Regular d
  marker : (d .marker).isSome
  moved : ∀ f ∈ saved, d (.live f) = none ∧ d (.previous f) = old f ∧ old f ≠ none
  kept : ∀ f, f ∉ saved → d (.live f) = old f ∧ d (.previous f) = none
  staged : ∀ f ∈ targets, d (.staged f) = snapshot.file f ∧ snapshot.file f ≠ none

/-- During a rollback each file is in exactly one of its two places. -/
def RollingBack (old : File → Option Node) (d : Dir) : Prop :=
  Regular d ∧ ∀ f, (d (.live f) = old f ∧ d (.previous f) = none) ∨ (d (.live f) = none ∧ d (.previous f) = old f)

theorem RollingBack.standsFor (h : RollingBack old d) : StandsFor old d := by
  refine ⟨h.1, ?_⟩
  funext f
  rcases h.2 f with ⟨hl, hp⟩ | ⟨hl, hp⟩ <;> simp [committed, hl, hp]

theorem RollingBack.sameCore (h : RollingBack old d) (hcore : SameCore d t) (ht : Regular t) : RollingBack old t := by
  refine ⟨ht, fun f => ?_⟩
  rw [hcore.live f, hcore.previous f]
  exact h.2 f

variable {targets : List File}

theorem Saving.rollingBack {saved : List File} (h : Saving old snapshot targets saved d) :
    RollingBack old d := by
  refine ⟨h.regular, fun f => ?_⟩
  by_cases hf : f ∈ saved
  · exact .inr ⟨(h.moved f hf).1, (h.moved f hf).2.1⟩
  · exact .inl (h.kept f hf)

theorem renameBack_safe (fs : List File) (d : Dir) (h : RollingBack old d) :
    Safe (StandsFor old) (renameBack fs) d fun _ t => RollingBack old t := by
  induction fs generalizing d with
  | nil => exact safe_pure h
  | cons f fs ih =>
    refine safe_bind (R := fun _ t => RollingBack old t)
      (safe_renameat h.standsFor h.1 (fun _ => h) ?_) fun _ t ht => ih t ht
    intro n hn
    have hfolder : some n ≠ some Node.folder := hn ▸ h.1 _
    refine ⟨regular_update (regular_update h.1 _ (by simp)) _ hfolder, fun g => ?_⟩
    by_cases hg : g = f
    · subst hg
      rcases h.2 g with ⟨_, hp⟩ | ⟨_, hp⟩
      · simp [hp] at hn
      · left
        simp [← hp, hn]
    · simpa [hg] using h.2 g

theorem abandon_safe (h : RollingBack old d) :
    Safe (StandsFor old) abandon d fun ok t => ok = false ∧ StandsFor old t := by
  have hunlink : RollingBack old (update d .marker none) :=
    ⟨regular_update h.1 _ (by simp), fun f => by simpa using h.2 f⟩
  refine safe_bind (safe_unlinkat_ignored (Q := fun _ t => RollingBack old t) h.standsFor h.1 fun _ => hunlink) ?_
  intro _ t ht
  refine safe_bind (removeStagedFiles_safe managedFiles t ht.1 fun u hu hcore =>
    (ht.sameCore hcore hu).standsFor) ?_
  rintro _ u ⟨hu, hcore, -⟩
  exact safe_pure ⟨rfl, (ht.sameCore hcore hu).standsFor⟩

theorem Saving.save {saved : List File} {n : Node} (h : Saving old snapshot targets saved d)
    (hf : f ∉ saved) (hn : d (.live f) = some n) : Saving old snapshot targets (saved ++ [f])
      (update (update d (.live f) none) (.previous f) (some n)) := by
  have hold : old f = some n := (h.kept f hf).1.symm.trans hn
  have hfolder : some n ≠ some Node.folder := hn ▸ h.regular _
  refine ⟨regular_update (regular_update h.regular _ (by simp)) _ hfolder, by simpa using h.marker, ?_, ?_,
    by simpa using h.staged⟩
  · intro g hg
    by_cases hgf : g = f
    · subst hgf; simp [hold]
    · simpa [hgf] using h.moved g (by simpa [hgf] using hg)
  · intro g hg
    have hgf : g ≠ f := by
      intro he
      simp [he] at hg
    simpa [hgf] using h.kept g (by simp_all)

theorem saveFiles_safe (targets fs saved : List File) (d : Dir) (hnodup : (saved ++ fs).Nodup)
    (h : Saving old snapshot targets saved d) : Safe (StandsFor old) (saveFiles saved fs) d fun ok t =>
      StandsFor old t ∧ (ok = true → Saving old snapshot targets (saved ++ fs) t) := by
  induction fs generalizing saved d with
  | nil => exact safe_pure ⟨h.rollingBack.standsFor, fun _ => by simpa using h⟩
  | cons f fs ih =>
    have hf : f ∉ saved := fun hmem => disjoint_of_nodup_append hnodup hmem mem_cons_self
    refine safe_bind (R := fun status t => (status = some .enoent ∧ RollingBack old t) ∨
        (status = none ∧ Saving old snapshot targets (saved ++ [f]) t))
      (safe_renameat h.rollingBack.standsFor h.regular (fun _ => .inl ⟨rfl, h.rollingBack⟩) fun n hn =>
        .inr ⟨rfl, h.save hf hn⟩) ?_
    rintro status t (⟨rfl, ht⟩ | ⟨rfl, ht⟩)
    · rw [if_pos (by simp)]
      refine safe_bind (renameBack_safe saved t ht) fun _ u hu => ?_
      refine (abandon_safe hu).imp ?_
      rintro ok v ⟨rfl, hv⟩
      exact ⟨hv, by simp⟩
    · rw [if_neg (by simp)]
      have hnodup' : (saved ++ [f] ++ fs).Nodup := by simpa using hnodup
      simpa only [append_assoc, cons_append, nil_append] using ih (saved ++ [f]) t hnodup' ht

/-- While files are installed every target has its old contents saved, so the
marker still makes the directory stand for them. -/
structure Installing (old : File → Option Node) (snapshot : Snapshot) (targets installed : List File)
    (d : Dir) : Prop where
  regular : Regular d
  marker : (d .marker).isSome
  saved : ∀ f ∈ targets, d (.previous f) = old f ∧ old f ≠ none
  kept : ∀ f, f ∉ targets → d (.live f) = old f ∧ d (.previous f) = none
  live : ∀ f ∈ installed, d (.live f) = snapshot.file f ∧ snapshot.file f ≠ none
  staged : ∀ f ∈ targets, f ∉ installed → d (.staged f) = snapshot.file f ∧ snapshot.file f ≠ none

variable {targets : List File}

theorem Saving.installing (h : Saving old snapshot targets targets d) : Installing old snapshot targets [] d :=
  ⟨h.regular, h.marker, fun f hf => (h.moved f hf).2, h.kept, by simp, fun f hf _ => h.staged f hf⟩

theorem Installing.standsFor {installed : List File} (h : Installing old snapshot targets installed d) :
    StandsFor old d := by
  refine ⟨h.regular, ?_⟩
  funext f
  by_cases hf : f ∈ targets
  · obtain ⟨hp, hne⟩ := h.saved f hf
    obtain ⟨n, hn⟩ := Option.ne_none_iff_exists'.mp hne
    simp [committed, h.marker, hp, hn]
  · simp [committed, h.marker, h.kept f hf]

theorem Installing.install {installed : List File} {n : Node}
    (h : Installing old snapshot targets installed d) (hf : f ∈ targets) (hfresh : f ∉ installed)
    (hn : d (.staged f) = some n) : Installing old snapshot targets (installed ++ [f])
      (update (update d (.staged f) none) (.live f) (some n)) := by
  obtain ⟨hstaged, hsome⟩ := h.staged f hf hfresh
  have hfolder : some n ≠ some Node.folder := hn ▸ h.regular _
  refine ⟨regular_update (regular_update h.regular _ (by simp)) _ hfolder, by simpa using h.marker,
    by simpa using h.saved, ?_, ?_, ?_⟩
  · intro g hg
    have hgf : g ≠ f := fun he => hg (he ▸ hf)
    simpa [hgf] using h.kept g hg
  · intro g hg
    by_cases hgf : g = f
    · subst hgf
      exact ⟨by simpa [hn] using hstaged, hsome⟩
    · simpa [hgf] using h.live g (by simpa [hgf] using hg)
  · intro g hg hnew
    have hgf : g ≠ f := by
      intro he
      simp [he] at hnew
    simpa [hgf] using h.staged g hg (by simp_all)

/-- The rename of a staged copy cannot fail here: the copy is there and its
target name is free or a file. So the second rollback is never entered. -/
theorem installFiles_safe (targets fs installed : List File) (d : Dir) (hnodup : (installed ++ fs).Nodup)
    (hfs : ∀ f ∈ fs, f ∈ targets) (h : Installing old snapshot targets installed d) :
    Safe (StandsFor old) (installFiles targets installed fs) d fun ok t =>
      ok = true ∧ Installing old snapshot targets (installed ++ fs) t := by
  induction fs generalizing installed d with
  | nil => exact safe_pure ⟨rfl, by simpa using h⟩
  | cons f fs ih =>
    have hfresh : f ∉ installed := fun hmem => disjoint_of_nodup_append hnodup hmem mem_cons_self
    have htarget := hfs f mem_cons_self
    refine safe_bind (R := fun status t => status = none ∧ Installing old snapshot targets (installed ++ [f]) t)
      (safe_renameat h.standsFor h.regular ?_ fun n hn => ⟨rfl, h.install htarget hfresh hn⟩) ?_
    · intro habs
      obtain ⟨hstaged, hsome⟩ := h.staged f htarget hfresh
      exact absurd (hstaged ▸ habs) hsome
    · rintro status t ⟨rfl, ht⟩
      rw [if_neg (by simp)]
      have hnodup' : (installed ++ [f] ++ fs).Nodup := by simpa using hnodup
      simpa only [append_assoc, cons_append, nil_append] using
        ih (installed ++ [f]) t hnodup' (fun g hg => hfs g (mem_cons_of_mem _ hg)) ht

theorem createRestoreMarker_safe (io : Io) {done : List File} (h : Staging old snapshot done d) :
    Safe (StandsFor old) (createRestoreMarker io) d fun ok t =>
      StandsFor old t ∧ (ok = true → Saving old snapshot done [] t) := by
  have hgone : update d .marker none = d := by rw [← h.marker, update_eq_self]
  have hmarked : Saving old snapshot done [] (update d .marker (some (.file []))) :=
    ⟨regular_update h.regular _ (by simp), by simp, by simp,
      fun f _ => ⟨by simpa using h.live f, by simpa using h.previous f⟩, by simpa using h.staged⟩
  refine safe_bind (safe_unlinkat_ignored (Q := fun _ t => t = d) h.standsFor h.regular fun _ => hgone) ?_
  rintro _ t rfl
  refine safe_bind (safe_createExclusive (Q := fun ok u => (ok = false ∧ u = t) ∨
      (ok = true ∧ Saving old snapshot done [] u)) h.standsFor (.inl ⟨rfl, rfl⟩) fun _ => .inr ⟨rfl, hmarked⟩) ?_
  rintro ok u (⟨rfl, rfl⟩ | ⟨rfl, hu⟩)
  · exact safe_pure ⟨h.standsFor, by simp⟩
  · exact safe_pure ⟨hu.rollingBack.standsFor, fun _ => hu⟩

/-- After the marker is gone the installed files decide, saved copies or not. -/
structure Committed (new : File → Option Node) (targets : List File) (d : Dir) : Prop where
  regular : Regular d
  marker : d .marker = none
  live : ∀ f, d (.live f) = new f
  installed : ∀ f ∈ targets, new f ≠ none
  previous : ∀ f, f ∉ targets → d (.previous f) = none

variable {new : File → Option Node}

theorem Committed.standsFor (h : Committed new targets d) : StandsFor new d := by
  refine ⟨h.regular, ?_⟩
  funext f
  by_cases hf : f ∈ targets
  · obtain ⟨n, hn⟩ := Option.ne_none_iff_exists'.mp (h.installed f hf)
    simp [committed, h.marker, h.live, hn]
  · simp [committed, h.marker, h.live, h.previous f hf]

theorem Installing.commit (h : Installing old snapshot targets targets d) :
    Committed (fun f => if f ∈ targets then snapshot.file f else old f) targets (update d .marker none) := by
  refine ⟨regular_update h.regular _ (by simp), by simp, ?_, ?_, fun f hf => by simpa using (h.kept f hf).2⟩
  · intro f
    by_cases hf : f ∈ targets
    · simpa [hf] using (h.live f hf).1
    · simpa [hf] using (h.kept f hf).1
  · intro f hf
    simpa [hf] using (h.live f hf).2

theorem unlinkPrevious_safe (fs : List File) (d : Dir) (h : Committed new targets d) :
    Safe (StandsFor new) (unlinkPrevious fs) d fun _ t => StandsFor new t := by
  induction fs generalizing d with
  | nil => exact safe_pure h.standsFor
  | cons f fs ih =>
    have hnext : Committed new targets (update d (.previous f) none) := by
      refine ⟨regular_update h.regular _ (by simp), by simpa using h.marker, by simpa using h.live, h.installed, ?_⟩
      intro g hg
      by_cases hgf : g = f
      · simp [hgf]
      · simpa [hgf] using h.previous g hg
    exact safe_bind (safe_unlinkat_ignored (Q := fun _ t => Committed new targets t) h.standsFor h.regular
      fun _ => hnext) fun _ t ht => ih t ht

theorem unlinkSidecars_safe (h : StandsFor new d) :
    Safe (StandsFor new) unlinkSidecars d fun _ t => StandsFor new t := by
  have hstep (s : Sidecar) (t : Dir) (ht : StandsFor new t) :
      Safe (StandsFor new) (unlinkat (.sidecar s)) t fun _ u => StandsFor new u :=
    safe_unlinkat_ignored ht ht.1 fun _ =>
      (SameCore.update_sidecar t s none).standsFor (regular_update ht.1 _ (by simp)) ht
  refine safe_bind (hstep .wal d h) fun _ t ht => ?_
  refine safe_bind (hstep .shm t ht) fun _ u hu => ?_
  exact safe_bind (hstep .journal u hu) fun _ v hv => safe_pure hv

end AeraRecovery.Settings.Replace
