import AeraRecovery.Settings.Restore

namespace AeraRecovery.Settings.Stage

open Lib Bytes Crash Directory Repair Restore Function List

variable {old : File → Option Node} {snapshot : Snapshot} {d t : Dir} {f : File}

theorem validSource_some {source : Option Node} {maximum : Nat} {validation : Validation} {contents : Bytes}
    (h : validSource source maximum validation = some contents) : source = some (.file contents) := by
  cases source with
  | none => simp [validSource] at h
  | some n =>
    cases n with
    | folder => simp [validSource] at h
    | file bytes =>
      simp only [validSource] at h
      split at h
      next => simpa using h
      next => simp at h

theorem copyBuffers_safe (io : Io) (maximum : Nat) (bufs : List Bytes) (index total : Nat) (d : Dir)
    (c : Bytes) (hd : Regular d) (hc : d (.stagedTemporary f) = some (.file c)) :
    Safe (fun t => Regular t ∧ SameCore d t) (copyBuffers io f maximum index total bufs) d fun r t =>
      Regular t ∧ SameCore d t ∧ (∀ g, t (.staged g) = d (.staged g)) ∧
        (r ≠ none → t (.stagedTemporary f) = some (.file (c ++ bufs.flatten))) := by
  induction bufs generalizing index total d c with
  | nil => exact safe_pure ⟨hd, .refl d, fun _ => rfl, fun _ => by simpa using hc⟩
  | cons buffer rest ih =>
    refine safe_ite (fun _ => safe_pure ⟨hd, .refl d, fun _ => rfl, by simp⟩) fun _ => ?_
    refine safe_ite (fun _ => safe_pure ⟨hd, .refl d, fun _ => rfl, by simp⟩) fun _ => ?_
    refine safe_bind (safe_append (Q := fun _ t => t = update d (.stagedTemporary f)
      (some (.file (c ++ buffer)))) ⟨hd, .refl d⟩ hc rfl) ?_
    rintro _ t rfl
    have hcore := SameCore.update_stagedTemporary d f (some (.file (c ++ buffer)))
    have hu := regular_update hd (.stagedTemporary f) (n := some (.file (c ++ buffer))) (by simp)
    have h := ih (index + 1) (total + buffer.length) _ (c ++ buffer) hu (update_self _ _ _)
    refine (h.mono fun u hu => ⟨hu.1, hcore.trans hu.2⟩).imp ?_
    rintro r u ⟨hu, hcu, hstaged, htmp⟩
    refine ⟨hu, hcore.trans hcu, fun g => ?_, fun hr => ?_⟩
    · rw [hstaged g]; simp
    · rw [htmp hr]; simp

/-- A copy that reports success has put the whole source under the staged name;
in any case it stays away from live files, saved files and the marker. -/
theorem copyBounded_safe (io : Io) (source : Option Node) (maximum : Nat) (validation : Validation) (hd : Regular d) :
    Safe (fun t => Regular t ∧ SameCore d t) (copyBounded io source f maximum validation) d fun ok t =>
      Regular t ∧ SameCore d t ∧ (∀ g, g ≠ f → t (.staged g) = d (.staged g)) ∧
        (ok = true → source ≠ none ∧ t (.staged f) = source) := by
  cases hs : validSource source maximum validation with
  | none =>
    simp only [copyBounded, hs]
    exact safe_pure ⟨hd, .refl d, fun _ _ => rfl, by simp⟩
  | some contents =>
    have hsource := validSource_some hs
    simp only [copyBounded, hs]
    refine safe_bind (safe_unlinkat_ignored (Q := fun _ t => t = update d (.stagedTemporary f) none)
      ⟨hd, .refl d⟩ hd fun _ => rfl) ?_
    rintro _ t rfl
    have ht := regular_update hd (.stagedTemporary f) (n := none) (by simp)
    have hcore := SameCore.update_stagedTemporary d f none
    refine safe_bind (safe_createExclusive (Q := fun ok u =>
        (ok = false ∧ u = update d (.stagedTemporary f) none) ∨
        (ok = true ∧ u = update d (.stagedTemporary f) (some (.file []))))
      ⟨ht, hcore⟩ (.inl ⟨rfl, rfl⟩) fun _ => .inr ⟨rfl, by rw [update_idem]⟩) ?_
    rintro ok u (⟨rfl, rfl⟩ | ⟨rfl, rfl⟩)
    · rw [if_neg (by simp)]
      exact safe_pure ⟨ht, hcore, fun g _ => by simp, by simp⟩
    · rw [if_pos rfl]
      have hu := regular_update hd (.stagedTemporary f) (n := some (.file [])) (by simp)
      have hcore := SameCore.update_stagedTemporary d f (some (.file []))
      refine safe_ite (fun _ => ?_) fun _ => ?_
      · refine safe_bind (safe_unlinkat_ignored (Q := fun _ v => v = update d (.stagedTemporary f) none)
          ⟨hu, hcore⟩ hu fun _ => by rw [update_idem]) ?_
        rintro _ v rfl
        exact safe_pure ⟨ht, .update_stagedTemporary d f none, fun g _ => by simp, by simp⟩
      · have hcopy := copyBuffers_safe io maximum (buffers 4095 contents) 0 0 _ [] hu
          (update_self _ _ _)
        refine safe_bind (R := fun r v => Regular v ∧ SameCore d v ∧ (∀ g, v (.staged g) = d (.staged g)) ∧
          (r ≠ none → v (.stagedTemporary f) = some (.file contents))) ?_ ?_
        · refine (hcopy.mono fun v hv => ⟨hv.1, hcore.trans hv.2⟩).imp ?_
          rintro r v ⟨hv, hcv, hstaged, htmp⟩
          refine ⟨hv, hcore.trans hcv, fun g => ?_, fun hr => ?_⟩
          · rw [hstaged g]; simp
          · rw [htmp hr, buffers_flatten]; rfl
        · rintro r v ⟨hv, hcv, hstaged, htmp⟩
          cases r with
          | none => exact safe_pure ⟨hv, hcv, fun g _ => hstaged g, by simp⟩
          | some total =>
            refine safe_ite (fun _ => safe_pure ⟨hv, hcv, fun g _ => hstaged g, by simp⟩) fun _ => ?_
            have htmp := htmp (by simp)
            refine safe_bind (safe_renameat (Q := fun status w => status = none ∧
              w = update (update v (.stagedTemporary f) none) (.staged f)
                (some (.file contents))) ⟨hv, hcv⟩ hv (fun habs => by simp [htmp] at habs) ?_) ?_
            · intro n hn
              rw [htmp] at hn
              exact ⟨rfl, by rw [Option.some.inj hn]⟩
            · rintro status w ⟨rfl, rfl⟩
              refine safe_pure ⟨regular_update (regular_update hv _ (by simp)) _ (by simp),
                hcv.trans ((SameCore.update_stagedTemporary v f none).trans (.update_staged _ f _)),
                fun g hg => ?_, fun _ => ⟨by simp [hsource], by simp [hsource]⟩⟩
              simp [hg, hstaged g]

/-- What staging keeps: the directory still looks untouched, and the files in
`done` have their complete copy waiting. -/
structure Staging (old : File → Option Node) (snapshot : Snapshot) (done : List File) (d : Dir) : Prop where
  regular : Regular d
  live : ∀ f, d (.live f) = old f
  previous : ∀ f, d (.previous f) = none
  marker : d .marker = none
  staged : ∀ f ∈ done, d (.staged f) = snapshot.file f ∧ snapshot.file f ≠ none

theorem Staging.standsFor {done : List File} (h : Staging old snapshot done d) : StandsFor old d := by
  refine ⟨h.regular, ?_⟩
  funext f
  simp [committed, h.marker, h.live, h.previous]

theorem stageFiles_safe (io : Io) (validation : Validation) (fs done : List File) (d : Dir)
    (h : Staging old snapshot done d) : Safe (StandsFor old) (stageFiles io snapshot validation fs) d fun ok t =>
      StandsFor old t ∧ (ok = true → Staging old snapshot (done ++ fs) t) := by
  induction fs generalizing done d with
  | nil => exact safe_pure ⟨h.standsFor, fun _ => by simpa using h⟩
  | cons f fs ih =>
    have hcopy := copyBounded_safe (f := f) io (snapshot.file f) maximumAndroidSettingsBytes validation h.regular
    refine safe_bind (hcopy.mono fun t ht => ht.2.standsFor ht.1 h.standsFor) ?_
    rintro ok t ⟨ht, hcore, hother, hok⟩
    cases ok with
    | false =>
      have hstands := hcore.standsFor ht h.standsFor
      refine safe_bind (removeStagedFiles_safe managedFiles t ht fun u hu hcu => hcu.standsFor hu hstands) ?_
      rintro _ u ⟨hu, hcu, -⟩
      exact safe_pure ⟨hcu.standsFor hu hstands, by simp⟩
    | true =>
      obtain ⟨hsome, hstaged⟩ := hok rfl
      have hnext : Staging old snapshot (done ++ [f]) t := by
        refine ⟨ht, fun g => (hcore.live g).trans (h.live g), fun g => (hcore.previous g).trans (h.previous g),
          hcore.marker.trans h.marker, ?_⟩
        intro g hg
        by_cases hgf : g = f
        · subst hgf; exact ⟨hstaged, hsome⟩
        · rw [hother g hgf]
          exact h.staged g (by simpa [hgf] using hg)
      rw [if_pos rfl]
      simpa only [append_assoc, cons_append, nil_append] using ih (done ++ [f]) t hnext

end AeraRecovery.Settings.Stage
