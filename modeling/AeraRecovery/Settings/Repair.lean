import AeraRecovery.Settings.Directory

namespace AeraRecovery.Settings.Repair

open Lib.Crash Directory Function

/-- The fallible calls that are not directory mutations. An `Io` says which of
them succeed in one run; a theorem for every `Io` covers every failure pattern. -/
inductive Call
  | openCopy (f : File)
  | chownCopy (f : File)
  | read (f : File) (index : Nat)
  | write (f : File) (index : Nat)
  | fsyncCopy (f : File)
  | syncStaged (f : File)
  | openMarker
  | chownMarker
  | fsyncMarker
  | syncMarker
  | syncInstalled
  | syncCommitted
  | syncCleaned
  | syncRepaired

abbrev Io := Call → Bool

def removeStagedFiles : List File → Prog Dir Unit
  | [] => pure ()
  | f :: fs => do
      let _ ← unlinkat (.staged f)
      let _ ← unlinkat (.stagedTemporary f)
      removeStagedFiles fs

/-- One round of the repair loop. `true` continues, `false` is `return false`. -/
def repairFile (interrupted : Bool) (f : File) : Prog Dir Bool := do
  match ← fstatat (.previous f) with
  | .error errno => pure (errno = .enoent)
  | .ok .folder => pure false
  | .ok (.file _) =>
    if interrupted then do
      let status ← unlinkat (.live f)
      if status ≠ none ∧ status ≠ some .enoent then pure false
      else do
        let status ← renameat (.previous f) (.live f)
        pure status.isNone
    else do
      match ← fstatat (.live f) with
      | .ok _ => do
          let status ← unlinkat (.previous f)
          pure status.isNone
      | .error errno =>
        if errno ≠ .enoent then pure false
        else do
          let status ← renameat (.previous f) (.live f)
          pure status.isNone

def repairFiles (interrupted : Bool) : List File → Prog Dir Bool
  | [] => pure true
  | f :: fs => do
      if ← repairFile interrupted f then repairFiles interrupted fs else pure false

def repairInterruptedRestore (io : Io) : Prog Dir Bool := do
  removeStagedFiles managedFiles
  let interrupted ← pathExists .marker
  if ← repairFiles interrupted managedFiles then
    if interrupted then do
      let status ← unlinkat .marker
      if status ≠ none ∧ status ≠ some .enoent then pure false else pure (io .syncRepaired)
    else pure (io .syncRepaired)
  else pure false

/-- What the directory stands for: while the marker is there a saved file wins
over the live one, afterwards the live file wins over the saved one. -/
def committed (d : Dir) (f : File) : Option Node :=
  if (d .marker).isSome then (d (.previous f)).or (d (.live f)) else (d (.live f)).or (d (.previous f))

/-- The crash invariant of a repair: it never changes what the directory stands for. -/
def StandsFor (c : File → Option Node) (d : Dir) : Prop := Regular d ∧ committed d = c

/-- No trace of a restore: no staged copy, no saved file, no marker. -/
structure Clean (d : Dir) : Prop where
  staged : ∀ f, d (.staged f) = none
  stagedTemporary : ∀ f, d (.stagedTemporary f) = none
  previous : ∀ f, d (.previous f) = none
  marker : d .marker = none

variable {d : Dir}

theorem committed_clean (h : Clean d) (f : File) : committed d f = d (.live f) := by
  simp [committed, h.marker, h.previous]

/-- `t` differs from `d` at most in staged copies and sidecars. -/
structure SameCore (d t : Dir) : Prop where
  live : ∀ f, t (.live f) = d (.live f)
  previous : ∀ f, t (.previous f) = d (.previous f)
  marker : t .marker = d .marker

theorem SameCore.refl (d : Dir) : SameCore d d := ⟨fun _ => rfl, fun _ => rfl, rfl⟩

theorem SameCore.trans {t u : Dir} (h : SameCore d t) (h' : SameCore t u) : SameCore d u :=
  ⟨fun f => (h'.live f).trans (h.live f), fun f => (h'.previous f).trans (h.previous f), h'.marker.trans h.marker⟩

theorem SameCore.update_staged (d : Dir) (f : File) (n : Option Node) : SameCore d (update d (.staged f) n) :=
  ⟨fun _ => by simp, fun _ => by simp, by simp⟩

theorem SameCore.update_stagedTemporary (d : Dir) (f : File) (n : Option Node) :
    SameCore d (update d (.stagedTemporary f) n) :=
  ⟨fun _ => by simp, fun _ => by simp, by simp⟩

theorem SameCore.update_sidecar (d : Dir) (s : Sidecar) (n : Option Node) : SameCore d (update d (.sidecar s) n) :=
  ⟨fun _ => by simp, fun _ => by simp, by simp⟩

theorem SameCore.committed {t : Dir} (h : SameCore d t) : committed t = committed d := by
  funext f
  simp only [Repair.committed, h.live, h.previous, h.marker]

variable {c : File → Option Node}

theorem SameCore.standsFor {t : Dir} (h : SameCore d t) (ht : Regular t) (hd : StandsFor c d) : StandsFor c t :=
  ⟨ht, h.committed.trans hd.2⟩

/-- Removing the staged copies leaves the rest of the directory alone, whatever
invariant `C` of the core the caller is maintaining. -/
theorem removeStagedFiles_safe {C : Dir → Prop} (fs : List File) (d : Dir) (hd : Regular d)
    (hC : ∀ t, Regular t → SameCore d t → C t) : Safe C (removeStagedFiles fs) d fun _ t => Regular t ∧ SameCore d t ∧
      (∀ e, d e = none → t e = none) ∧ ∀ f ∈ fs, t (.staged f) = none ∧ t (.stagedTemporary f) = none := by
  induction fs generalizing d with
  | nil => exact safe_pure ⟨hd, .refl d, fun _ h => h, by simp⟩
  | cons f fs ih =>
    have hkeep (t : Dir) (e' e : Entry) (h : t e = none) : update t e' none e = none := by
      by_cases he : e = e'
      · subst he; rw [update_self]
      · rwa [update_of_ne he]
    refine safe_bind (safe_unlinkat_ignored (Q := fun _ t => t = update d (.staged f) none)
      (hC d hd (.refl d)) hd fun _ => rfl) ?_
    rintro _ t rfl
    have ht := regular_update hd (.staged f) (n := none) (by simp)
    have hcore := SameCore.update_staged d f none
    refine safe_bind (safe_unlinkat_ignored
      (Q := fun _ u => u = update (update d (.staged f) none) (.stagedTemporary f) none)
      (hC _ ht hcore) ht fun _ => rfl) ?_
    rintro _ u rfl
    have hu := regular_update ht (.stagedTemporary f) (n := none) (by simp)
    have hcore' := hcore.trans (.update_stagedTemporary _ f none)
    refine (ih _ hu fun v hv hcv => hC v hv (hcore'.trans hcv)).imp ?_
    rintro _ v ⟨hv, hcv, hnone, hfs⟩
    refine ⟨hv, hcore'.trans hcv, fun e he => hnone e (hkeep _ _ _ (hkeep _ _ _ he)), ?_⟩
    intro g hg
    rcases List.mem_cons.mp hg with rfl | hg
    · exact ⟨hnone _ (by simp), hnone _ (by simp)⟩
    · exact hfs g hg

/-- What the repair loop keeps: files outside `fs` have no saved copy any more. -/
structure Repairing (c : File → Option Node) (interrupted : Bool) (fs : List File) (d : Dir) : Prop where
  standsFor : StandsFor c d
  marker : (d .marker).isSome = interrupted
  done : ∀ f, f ∉ fs → d (.previous f) = none
  staged : ∀ f, d (.staged f) = none
  stagedTemporary : ∀ f, d (.stagedTemporary f) = none

section

variable {c : File → Option Node} {interrupted : Bool} {f : File} {fs : List File} {d : Dir} {n : Node}

theorem Repairing.next (h : Repairing c interrupted (f :: fs) d) {d' : Dir} (hs : StandsFor c d')
    (hf : d' (.previous f) = none) (hsame : ∀ e, e ≠ .live f → e ≠ .previous f → d' e = d e) :
    Repairing c interrupted fs d' := by
  refine ⟨hs, ?_, fun g hg => ?_, fun g => ?_, fun g => ?_⟩
  · rw [hsame .marker nofun nofun, h.marker]
  · by_cases hgf : g = f
    · rw [hgf, hf]
    · rw [hsame (.previous g) nofun (by simp [hgf]), h.done g (by simp [hgf, hg])]
  · rw [hsame (.staged g) nofun nofun, h.staged]
  · rw [hsame (.stagedTemporary g) nofun nofun, h.stagedTemporary]

theorem standsFor_unlink_live (h : StandsFor c d) (hm : (d .marker).isSome) (hp : d (.previous f) = some n) :
    StandsFor c (update d (.live f) none) := by
  refine ⟨regular_update h.1 _ (by simp), ?_⟩
  rw [← h.2]
  funext g
  by_cases hg : g = f
  · subst hg; simp [committed, hm, hp]
  · simp [committed, hm, hg]

theorem standsFor_unlink_previous (h : StandsFor c d) (hm : (d .marker).isSome = false)
    (hl : d (.live f) = some n) : StandsFor c (update d (.previous f) none) := by
  refine ⟨regular_update h.1 _ (by simp), ?_⟩
  rw [← h.2]
  funext g
  by_cases hg : g = f
  · subst hg; simp [committed, hm, hl]
  · simp [committed, hm, hg]

theorem standsFor_rename_back (h : StandsFor c d) (hl : d (.live f) = none) (hp : d (.previous f) = some n) :
    StandsFor c (update (update d (.previous f) none) (.live f) (some n)) := by
  have hn : some n ≠ some Node.folder := hp ▸ h.1 (.previous f)
  refine ⟨regular_update (regular_update h.1 _ (by simp)) _ hn, ?_⟩
  rw [← h.2]
  funext g
  by_cases hg : g = f
  · subst hg; simp [committed, hl, hp]
  · simp [committed, hg]

theorem Repairing.update_live (h : Repairing c interrupted fs d) (m : Option Node)
    (hs : StandsFor c (update d (.live f) m)) : Repairing c interrupted fs (update d (.live f) m) :=
  ⟨hs, by simpa using h.marker, by simpa using h.done, by simpa using h.staged, by simpa using h.stagedTemporary⟩

theorem Repairing.rename_back (h : Repairing c interrupted (f :: fs) d) (hl : d (.live f) = none)
    (hp : d (.previous f) = some n) : Repairing c interrupted fs
      (update (update d (.previous f) none) (.live f) (some n)) := by
  refine h.next (standsFor_rename_back h.standsFor hl hp) (by simp) fun e hlive hprevious => ?_
  rw [update_of_ne hlive, update_of_ne hprevious]

theorem repairFile_safe (h : Repairing c interrupted (f :: fs) d) :
    Safe (StandsFor c) (repairFile interrupted f) d fun ok t => ok = true ∧ Repairing c interrupted fs t := by
  refine safe_bind (R := fun r t => t = d ∧ r = (d (.previous f)).elim (.error .enoent) .ok)
    (safe_fstatat (fun hp => ⟨rfl, by simp [hp]⟩) fun n hp => ⟨rfl, by simp [hp]⟩) ?_
  rintro r t ⟨rfl, rfl⟩
  cases hp : t (.previous f) with
  | none => exact safe_pure ⟨by simp, h.next h.standsFor hp fun _ _ _ => rfl⟩
  | some n =>
    cases n with
    | folder => exact absurd hp (h.standsFor.1 _)
    | file bytes =>
      cases interrupted with
      | true =>
        -- The live file goes first; the saved copy already decides what `t` stands for.
        have hsafe := standsFor_unlink_live h.standsFor h.marker hp
        refine safe_bind (safe_unlinkat (Q := fun status u => (status = none ∨ status = some .enoent) ∧
          u = update t (.live f) none) h.standsFor h.standsFor.1 ?_ fun _ => ⟨.inl rfl, rfl⟩) ?_
        · intro hl
          exact ⟨.inr rfl, by rw [← hl, update_eq_self]⟩
        · rintro status u ⟨hstatus, rfl⟩
          rw [if_neg (by tauto)]
          refine safe_bind (R := fun status u => status = none ∧ Repairing c true fs u)
            (safe_renameat hsafe hsafe.1 (fun habs => by simp [hp] at habs) ?_) ?_
          · intro m hm
            refine ⟨rfl, (h.update_live none hsafe).rename_back (by simp) hm⟩
          · rintro status u ⟨rfl, hu⟩
            exact safe_pure ⟨rfl, hu⟩
      | false =>
        refine safe_bind (R := fun r u => u = t ∧ r = (t (.live f)).elim (.error .enoent) .ok)
          (safe_fstatat (fun hl => ⟨rfl, by simp [hl]⟩) fun n hl => ⟨rfl, by simp [hl]⟩) ?_
        rintro r u ⟨rfl, rfl⟩
        cases hl : u (.live f) with
        | some m =>
          refine safe_bind (R := fun status v => status = none ∧ Repairing c false fs v)
            (safe_unlinkat h.standsFor h.standsFor.1 (fun habs => by simp [hp] at habs) fun _ =>
              ⟨rfl, h.next (standsFor_unlink_previous h.standsFor h.marker hl) (update_self ..) fun _ _ he =>
                update_of_ne he ..⟩) ?_
          rintro status v ⟨rfl, hv⟩
          exact safe_pure ⟨rfl, hv⟩
        | none =>
          refine safe_bind (R := fun status v => status = none ∧ Repairing c false fs v)
            (safe_renameat h.standsFor h.standsFor.1 (fun habs => by simp [hp] at habs) fun m hm =>
              ⟨rfl, h.rename_back hl hm⟩) ?_
          rintro status v ⟨rfl, hv⟩
          exact safe_pure ⟨rfl, hv⟩

theorem repairFiles_safe (fs : List File) (d : Dir) (h : Repairing c interrupted fs d) :
    Safe (StandsFor c) (repairFiles interrupted fs) d fun ok t => ok = true ∧ Repairing c interrupted [] t := by
  induction fs generalizing d with
  | nil => exact safe_pure ⟨rfl, h⟩
  | cons f fs ih =>
    refine safe_bind (repairFile_safe h) ?_
    rintro ok t ⟨rfl, ht⟩
    exact ih t ht

end

theorem Repairing.clean (h : Repairing c false [] d) : Clean d :=
  ⟨h.staged, h.stagedTemporary, fun f => h.done f (by simp), by simpa using h.marker⟩

theorem Repairing.unlink_marker (h : Repairing c true [] d) : Repairing c false [] (update d .marker none) := by
  refine ⟨⟨regular_update h.standsFor.1 _ (by simp), ?_⟩, by simp, by simpa using h.done,
    by simpa using h.staged, by simpa using h.stagedTemporary⟩
  rw [← h.standsFor.2]
  funext f
  have hp := h.done f (by simp)
  simp [committed, hp]

/-- A repair is invisible: every state it passes through stands for the same
contents, and it ends in a clean directory holding exactly these contents. -/
theorem repairInterruptedRestore_safe (io : Io) (h : StandsFor c d) :
    Safe (StandsFor c) (repairInterruptedRestore io) d fun _ t => StandsFor c t ∧ Clean t := by
  refine safe_bind (removeStagedFiles_safe managedFiles d h.1 fun t ht hcore => hcore.standsFor ht h) ?_
  rintro _ t ⟨ht, hcore, -, hgone⟩
  have hstands := hcore.standsFor ht h
  refine safe_bind (safe_pathExists (Q := fun b u => u = t ∧ b = (t .marker).isSome) ht ⟨rfl, rfl⟩) ?_
  rintro _ u ⟨rfl, rfl⟩
  have hloop : Repairing c (u .marker).isSome managedFiles u :=
    ⟨hstands, rfl, fun f hf => absurd (mem_managedFiles f) hf, fun f => (hgone f (mem_managedFiles f)).1,
      fun f => (hgone f (mem_managedFiles f)).2⟩
  refine safe_bind (repairFiles_safe managedFiles u hloop) ?_
  rintro _ v ⟨rfl, hv⟩
  cases hm : (u .marker).isSome with
  | false =>
    rw [hm] at hv
    exact safe_pure ⟨hv.standsFor, hv.clean⟩
  | true =>
    rw [hm] at hv
    refine safe_bind (R := fun status w => status = none ∧ Repairing c false [] w)
      (safe_unlinkat hv.standsFor hv.standsFor.1 (fun habs => ?_) fun _ => ⟨rfl, hv.unlink_marker⟩) ?_
    · have := hv.marker
      simp [habs] at this
    · rintro status w ⟨rfl, hw⟩
      exact safe_pure ⟨hw.standsFor, hw.clean⟩

theorem removeStagedFiles_clean (h : Clean d) (hd : Regular d) (fs : List File) :
    Safe (· = d) (removeStagedFiles fs) d fun _ t => t = d := by
  induction fs with
  | nil => exact safe_pure rfl
  | cons f fs ih =>
    refine safe_bind (safe_unlinkat (Q := fun _ t => t = d) rfl hd (fun _ => rfl)
      fun hne => absurd (h.staged f) hne) ?_
    rintro _ t rfl
    refine safe_bind (safe_unlinkat (Q := fun _ u => u = t) rfl hd (fun _ => rfl)
      fun hne => absurd (h.stagedTemporary f) hne) ?_
    rintro _ u rfl
    exact ih

theorem repairFiles_clean (h : Clean d) (interrupted : Bool) (fs : List File) :
    Safe (· = d) (repairFiles interrupted fs) d fun ok t => ok = true ∧ t = d := by
  induction fs with
  | nil => exact safe_pure ⟨rfl, rfl⟩
  | cons f fs ih =>
    have hskip : Safe (· = d) (repairFile interrupted f) d fun ok t => ok = true ∧ t = d := by
      refine safe_bind (safe_fstatat (Q := fun r t => r = .error .enoent ∧ t = d) (fun _ => ⟨rfl, rfl⟩)
        fun n hn => by simp [h.previous f] at hn) ?_
      rintro _ t ⟨rfl, rfl⟩
      exact safe_pure ⟨rfl, rfl⟩
    refine safe_bind hskip ?_
    rintro _ t ⟨rfl, rfl⟩
    exact ih

theorem repairInterruptedRestore_clean (io : Io) (h : Clean d) (hd : Regular d) :
    (repairInterruptedRestore io d).final = d := by
  have hsafe : Safe (· = d) (repairInterruptedRestore io) d fun _ t => t = d := by
    refine safe_bind (removeStagedFiles_clean h hd managedFiles) ?_
    rintro _ t rfl
    refine safe_bind (safe_pathExists (Q := fun b u => b = false ∧ u = t) hd ⟨by simp [h.marker], rfl⟩) ?_
    rintro _ u ⟨rfl, rfl⟩
    refine safe_bind (repairFiles_clean h false managedFiles) ?_
    rintro _ v ⟨rfl, rfl⟩
    exact safe_pure rfl
  exact hsafe.2

end AeraRecovery.Settings.Repair
