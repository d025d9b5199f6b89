import AeraRecovery.Payload.WriteBatch
import AeraRecovery.Payload.Lifecycle

namespace AeraRecovery.Payload.WriteBatch

open Lib Checks Steps Tiling Direct Extraction WriteOperation List Function

structure Admitted (b : Batch) (sizes : List UInt64) : Prop where
  files : b.files.length = b.parts.length
  count : b.parts.length ≤ 256
  valid : ∀ p ∈ b.parts, validate p b.block b.data = .ok p.size
  sizes : sizes = b.parts.map PartitionUpdate.size
  objects : (b.files.map File.object).Nodup
  names : (b.parts.map (·.partitionName)).Nodup
  accepted : ∀ p ∈ b.parts, nameAccepted p.partitionName = true

theorem checkTargets_ok {l : List (File × PartitionUpdate)} {seen out : List (UInt64 × UInt64) × List Bytes}
    (hidentities : seen.1.Nodup) (hnames : seen.2.Nodup) (h : l.foldlM checkTarget seen = .ok out) :
    (seen.1 ++ l.map fun t => t.1.metadata.identity).Nodup ∧ (seen.2 ++ l.map fun t => t.2.partitionName).Nodup ∧
      ∀ t ∈ l, nameAccepted t.2.partitionName = true := by
  induction l generalizing seen with
  | nil =>
    rw [map_nil, map_nil, append_nil, append_nil]
    exact ⟨hidentities, hnames, fun t ht => absurd ht not_mem_nil⟩
  | cons t l ih =>
    simp only [foldlM_cons, checkTarget, bind_ok_iff, ensure_ok_iff, pure_ok_iff, exists_const] at h
    obtain ⟨next, ⟨-, ⟨hidentity, hname⟩, haccepted, rfl⟩, hrest⟩ := h
    have hnew : ∀ {α : Type} {seen : List α} {a : α}, seen.Nodup → a ∉ seen → (seen ++ [a]).Nodup := by
      intro α seen a hseen ha
      exact nodup_append_comm.mp (nodup_cons.mpr ⟨ha, hseen⟩)
    obtain ⟨h₁, h₂, h₃⟩ := ih (hnew hidentities hidentity) (hnew hnames hname) hrest
    rw [append_assoc] at h₁ h₂
    exact ⟨h₁, h₂, forall_mem_cons.mpr ⟨haccepted, h₃⟩⟩

def Object.identity : Object → UInt64 × UInt64
  | .device rdev => (0, rdev)
  | .inode dev ino => (dev, ino)

theorem identity_eq (file : File) : file.metadata.identity = file.object.identity := by
  rw [Metadata.identity, File.object, Metadata.object]
  split_ifs <;> rfl

variable {sizes : List UInt64} {totalSize : UInt64}

theorem precheck_ok {b : Batch} (h : precheck b = .ok (sizes, totalSize)) : Admitted b sizes := by
  simp only [precheck, bind_ok_iff, ensure_ok_iff, pure_ok_iff, exists_const, Prod.mk.injEq] at h
  obtain ⟨⟨-, hcount, hfiles⟩, sizes', hsizes, total, -, seen, htargets, rfl, rfl⟩ := h
  obtain ⟨hidentities, hnames, haccepted⟩ := checkTargets_ok nodup_nil nodup_nil htargets
  have hsize : ∀ p size, validate p b.block b.data = .ok size → size = p.size := by
    intro p size hp
    exact ((validate_ok_iff _ _ _ _).mp hp).2.2.2.2.2
  have hvalid : ∀ p ∈ b.parts, validate p b.block b.data = .ok p.size := by
    intro p hp
    obtain ⟨size, -, hv⟩ := (mapM_ok_mem hsizes).2 p hp
    rwa [hsize p size hv] at hv
  have hfst : (b.files.zip b.parts).map Prod.fst = b.files := map_fst_zip hfiles.le
  have hsnd : (b.files.zip b.parts).map Prod.snd = b.parts := map_snd_zip hfiles.ge
  refine ⟨hfiles, hcount, hvalid, mapM_ok_map hsizes hsize, ?_, ?_, ?_⟩
  · simp only [nil_append, identity_eq] at hidentities
    have hobjects : ((b.files.zip b.parts).map fun t => t.1.object).Nodup := by
      refine Nodup.of_map Object.identity ?_
      rwa [map_map]
    rw [← hfst, map_map]
    exact hobjects
  · rw [← hsnd, map_map]
    exact hnames
  · intro p hp
    rw [← hsnd] at hp
    obtain ⟨t, ht, rfl⟩ := mem_map.mp hp
    exact haccepted t ht

theorem le_foldl_max {l : List Nat} {a n : Nat} (h : n ≤ a ∨ n ∈ l) : n ≤ l.foldl max a := by
  induction l generalizing a with
  | nil =>
    rcases h with h | h
    · exact h
    · cases h
  | cons m l ih =>
    rw [mem_cons] at h
    apply ih
    rcases h with h | rfl | h
    · exact .inl (h.trans (le_max_left _ _))
    · exact .inl (le_max_right _ _)
    · exact .inr h

theorem mem_order {i : Nat} : i ∈ order sizes ↔ i < sizes.length := by
  rw [order, mem_insertionSort, mem_range]

variable {k : Nat}

theorem mem_tasks {b : Batch} {i : Nat} :
    (i, k) ∈ tasks b sizes ↔ i < sizes.length ∧ k < (b.operations i).length := by
  simp only [tasks, mem_flatMap, mem_range, mem_map, mem_filter, mem_order, decide_eq_true_eq, Prod.mk.injEq]
  constructor
  · rintro ⟨op, -, j, ⟨hj, hop⟩, rfl, rfl⟩
    exact ⟨hj, hop⟩
  · rintro ⟨hi, hk⟩
    refine ⟨k, hk.trans_le (le_foldl_max (.inr ?_)), i, ⟨hi, hk⟩, rfl, rfl⟩
    exact mem_map.mpr ⟨i, mem_order.mpr hi, rfl⟩

def State.view (s : State) (i : Nat) (object : Object) : View := ⟨s.target i, s.log object, s.pc i⟩

variable {b : Batch} {s s' : State} {a : Action} {i : Nat} {file : File}

theorem ReporterMove.view (h : ReporterMove b s s') :
    s'.target = s.target ∧ s'.log = s.log ∧ s'.pc = s.pc ∧ s'.main = s.main ∧ s'.sizes = s.sizes := by
  cases h <;> exact ⟨rfl, rfl, rfl, rfl, rfl⟩

theorem MainMove.view (h : MainMove b s s') : s'.target = s.target ∧ s'.log = s.log ∧ s'.pc = s.pc := by
  cases h <;> exact ⟨rfl, rfl, rfl⟩

theorem startStep_spec (h : startStep b s i k = some s') :
    s.pc i k = .queued ∧ k < (b.operations i).length ∧ s' = s.setPc i k .guard := by
  rw [startStep] at h
  split at h
  · next hpc =>
    obtain ⟨⟨hmem, -⟩, h⟩ := Option.ite_none_right_eq_some.mp h
    exact ⟨hpc, (mem_tasks.mp hmem).2, (Option.some.inj h).symm⟩
  · cases h

theorem error_ne_none {pc : Pc} (h : pc.error ≠ none) : ∃ e, pc = .finished (.error e) := by
  cases pc with
  | finished r =>
    cases r with
    | ok => exact absurd rfl h
    | error e => exact ⟨e, rfl⟩
  | _ => exact absurd rfl h

theorem skipStep_spec (h : skipStep b s i k = some s') :
    s.pc i k = .queued ∧ k < (b.operations i).length ∧ s' = s.setPc i k .skipped ∧ s.main = .install ∧
      ∃ t ∈ tasks b s.sizes, ∃ e, s.pc t.1 t.2 = .finished (.error e) := by
  rw [skipStep] at h
  split at h
  · next hmain hpc =>
    obtain ⟨⟨hmem, t, ht, herror⟩, h⟩ := Option.ite_none_right_eq_some.mp h
    exact ⟨hpc, (mem_tasks.mp hmem).2, (Option.some.inj h).symm, hmain, t, ht, error_ne_none herror⟩
  · cases h

theorem setPc_view {j : Nat} {pc : Pc} (object : Object) : (s.setPc i k pc).view j object =
      if j = i then (s.view j object).move k (s.target j) (s.log object) pc else s.view j object := by
  by_cases hj : j = i
  · subst hj
    simp only [State.view, State.setPc, View.move, update_self, if_true]
  · simp only [State.view, State.setPc, update_of_ne hj, if_neg hj]

theorem runTask_spec {outcome : Outcome} (h : runTask b s i k outcome = some s') :
    ∃ file op, ∃ m : Memory, ∃ pc, b.files[i]? = some file ∧ (b.operations i)[k]? = some op ∧
      Move b.toSource op (s.target i) (s.log file.object) (s.pc i k) m.target m.log pc ∧ s.pc i k ≠ .queued ∧
      s' = { s.setPc i k pc with
        cancelled := m.cancelled
        target := update s.target i m.target
        log := update s.log file.object m.log } := by
  obtain ⟨file, hfile, h⟩ := Option.bind_eq_some_iff.mp h
  obtain ⟨op, hop, h⟩ := Option.bind_eq_some_iff.mp h
  obtain ⟨⟨m, pc⟩, hstep, h⟩ := Option.bind_eq_some_iff.mp h
  refine ⟨file, op, m, pc, hfile, hop, taskStep_move hstep, fun hqueued => ?_, (Option.some.inj h).symm⟩
  rw [hqueued] at hstep
  cases hstep

theorem step_view (hobjects : (b.files.map File.object).Nodup) (hfile : b.files[i]? = some file)
    (h : step b s a = some s') :
    s'.view i file.object = s.view i file.object ∨ ∃ k op t' l' pc', (b.operations i)[k]? = some op ∧
      Move b.toSource op (s.target i) (s.log file.object) (s.pc i k) t' l' pc' ∧
      s'.view i file.object = (s.view i file.object).move k t' l' pc' := by
  cases a with
  | start j k =>
    obtain ⟨hpc, hk, rfl⟩ := startStep_spec h
    rw [setPc_view]
    split_ifs with hij
    · subst hij
      exact .inr ⟨k, _, _, _, _, getElem?_eq_getElem hk, hpc ▸ .start _ _, rfl⟩
    · exact .inl rfl
  | skip j k =>
    obtain ⟨hpc, hk, rfl, -⟩ := skipStep_spec h
    rw [setPc_view]
    split_ifs with hij
    · subst hij
      exact .inr ⟨k, _, _, _, _, getElem?_eq_getElem hk, hpc ▸ .skip _ _, rfl⟩
    · exact .inl rfl
  | task j k outcome =>
    obtain ⟨file', op, m, pc, hfile', hop, hmove, -, rfl⟩ := runTask_spec h
    by_cases hij : i = j
    · subst hij
      obtain rfl := Option.some.inj (hfile.symm.trans hfile')
      refine .inr ⟨k, op, m.target, m.log, pc, hop, hmove, ?_⟩
      simp only [State.view, State.setPc, View.move, update_self]
    · have hobject : file.object ≠ file'.object := fun heq => hij (index_eq_of_key hobjects hfile hfile' heq)
      left
      simp only [State.view, State.setPc, update_of_ne hij, update_of_ne hobject]
  | reporter printed =>
    obtain ⟨htarget, hlog, hpc, -⟩ := (reporterStep_move h).view
    left
    rw [State.view, State.view, htarget, hlog, hpc]
  | main succeeded =>
    obtain ⟨htarget, hlog, hpc⟩ := (mainStep_move h).view
    left
    rw [State.view, State.view, htarget, hlog, hpc]

def Sound (b : Batch) (s : State) : Prop :=
  ∀ i file, b.files[i]? = some file → (s.view i file.object).Sound b.toSource (b.operations i)

theorem Sound.step (hobjects : (b.files.map File.object).Nodup) (hs : Sound b s) (h : step b s a = some s') :
    Sound b s' := by
  intro i file hfile
  rcases step_view hobjects hfile h with hview | ⟨k, op, t', l', pc', hop, hmove, hview⟩
  · rw [hview]
    exact hs i file hfile
  · rw [hview]
    exact (hs i file hfile).move hop hmove

theorem operations_eq {p : PartitionUpdate} (hp : b.parts[i]? = some p) : b.operations i = p.operations := by
  rw [Batch.operations, hp]
  rfl

theorem operations_ne_nil {p : PartitionUpdate} {block size : UInt64} {data : Bytes}
    (h : validate p block data = .ok size) : p.operations ≠ [] := by
  obtain ⟨header, -, -, htiles, -⟩ := (validate_ok_iff _ _ _ _).mp h
  intro hnil
  have hlen := htiles.length (Nat.zero_le _)
  rw [PartitionUpdate.bytes, hnil, flatMap_nil, map_nil, sum_nil] at hlen
  have := header.pos
  omega

theorem Admitted.part (hb : Admitted b sizes) (hfile : b.files[i]? = some file) :
    ∃ p, b.parts[i]? = some p ∧ p ∈ b.parts ∧ validate p b.block b.data = .ok p.size := by
  obtain ⟨hi, -⟩ := List.getElem?_eq_some_iff.mp hfile
  rw [hb.files] at hi
  exact ⟨b.parts[i], getElem?_eq_getElem hi, getElem_mem hi, hb.valid _ (getElem_mem hi)⟩

theorem Sound.start (hb : Admitted b sizes) : Sound b (start b) := by
  intro i file hfile
  obtain ⟨p, hp, -, hvalid⟩ := hb.part hfile
  have hne := length_pos_of_ne_nil (operations_ne_nil hvalid)
  rw [operations_eq hp]
  constructor
  · exact fun _ _ _ => trivial
  · exact (zero_add _).le
  · exact fun _ => (zero_add _).ge
  · change (b.operations i).length = ∑ k ∈ Finset.range p.operations.length, 1
    rw [operations_eq hp, Finset.sum_const, Finset.card_range]
    exact (mul_one _).symm
  · exact fun c hc => absurd hc not_mem_nil
  · refine .active (fun _ _ => rfl) ?_ nofun nofun
    change 0 < (b.operations i).length
    rwa [operations_eq hp]

variable {actions : List Action}

theorem sound_of_run (hb : Admitted b sizes) (h : run b actions (start b) = some s) : Sound b s :=
  run_invariant (I := Sound b) (fun _ _ _ hs hstep => hs.step hb.objects hstep) (Sound.start hb) h

theorem setPc_pc {i' k' : Nat} {pc : Pc} :
    (s.setPc i k pc).pc i' k' = if i' = i ∧ k' = k then pc else s.pc i' k' := by
  rw [State.setPc]
  by_cases hi : i' = i
  · subst hi
    simp only [update_self, update_apply, true_and]
  · simp only [update_of_ne hi, hi, false_and, if_false]

theorem step_pc (h : step b s a = some s') (i k : Nat) :
    s'.pc i k = s.pc i k ∨ ∃ op t l t' l', Move b.toSource op t l (s.pc i k) t' l' (s'.pc i k) := by
  cases a with
  | start j m =>
    obtain ⟨hpc, hm, rfl⟩ := startStep_spec h
    rw [setPc_pc]
    split_ifs with hjm
    · obtain ⟨rfl, rfl⟩ := hjm
      exact .inr ⟨(b.operations i)[k], s.target i, [], _, _, by rw [hpc]; exact .start _ _⟩
    · exact .inl rfl
  | skip j m =>
    obtain ⟨hpc, hm, rfl, -⟩ := skipStep_spec h
    rw [setPc_pc]
    split_ifs with hjm
    · obtain ⟨rfl, rfl⟩ := hjm
      exact .inr ⟨(b.operations i)[k], s.target i, [], _, _, by rw [hpc]; exact .skip _ _⟩
    · exact .inl rfl
  | task j m outcome =>
    obtain ⟨file, op, memory, pc, -, -, hmove, -, rfl⟩ := runTask_spec h
    change (s.setPc j m pc).pc i k = s.pc i k ∨ ∃ op t l t' l', Move b.toSource op t l (s.pc i k) t' l'
      ((s.setPc j m pc).pc i k)
    rw [setPc_pc]
    split_ifs with hjm
    · obtain ⟨rfl, rfl⟩ := hjm
      exact .inr ⟨op, _, _, _, _, hmove⟩
    · exact .inl rfl
  | reporter printed =>
    obtain ⟨-, -, hpc, -⟩ := (reporterStep_move h).view
    exact .inl (by rw [hpc])
  | main succeeded =>
    obtain ⟨-, -, hpc⟩ := (mainStep_move h).view
    exact .inl (by rw [hpc])

theorem step_finished {r : Except TaskError Unit} (h : step b s a = some s') (hpc : s.pc i k = .finished r) :
    s'.pc i k = .finished r := by
  rcases step_pc h i k with heq | ⟨op, t, l, t', l', hmove⟩
  · rw [heq, hpc]
  · rw [hpc] at hmove
    exact absurd hmove not_move_finished

theorem step_failed (h : step b s a = some s') (hpc : (s.pc i k).failed = true) : (s'.pc i k).failed = true := by
  rcases step_pc h i k with heq | ⟨op, t, l, t', l', hmove⟩
  · rwa [heq]
  · exact hmove.failed hpc

theorem step_skipped (h : step b s a = some s') (hpc : s'.pc i k = .skipped) :
    s.pc i k = .skipped ∨ s.main = .install ∧ ∃ t ∈ tasks b s.sizes, ∃ e, s.pc t.1 t.2 = .finished (.error e) := by
  cases a with
  | start j m =>
    obtain ⟨-, -, rfl⟩ := startStep_spec h
    rw [setPc_pc] at hpc
    split_ifs at hpc
    exact .inl hpc
  | skip j m => exact .inr (skipStep_spec h).2.2.2
  | task j m outcome =>
    obtain ⟨file, op, memory, pc, -, -, hmove, hne, rfl⟩ := runTask_spec h
    rw [setPc_pc] at hpc
    split_ifs at hpc
    · exact absurd (hmove.skipped hpc) hne
    · exact .inl hpc
  | reporter printed =>
    obtain ⟨-, -, heq, -⟩ := (reporterStep_move h).view
    exact .inl (heq ▸ hpc)
  | main succeeded =>
    obtain ⟨-, -, heq⟩ := (mainStep_move h).view
    exact .inl (heq ▸ hpc)

def Main.result : Main → Option (Except Error Unit)
  | .join result | .report _ result | .returned result => some result
  | _ => none

structure Pool (b : Batch) (sizes : List UInt64) (s : State) : Prop where
  recorded : s.main = .check ∨ s.sizes = sizes
  skipped : ∀ i k, s.pc i k = .skipped → ∃ t ∈ tasks b sizes, ∃ e, s.pc t.1 t.2 = .finished (.error e)
  finished : s.main.result = some (.ok ()) → ∀ t ∈ tasks b sizes, s.pc t.1 t.2 = .finished (.ok ())

theorem result_ok (hall : ∀ t ∈ tasks b s.sizes, (s.pc t.1 t.2).over = true)
    (hskipped : ∀ i k, s.pc i k = .skipped → ∃ t ∈ tasks b s.sizes, ∃ e, s.pc t.1 t.2 = .finished (.error e))
    (h : result b s = .ok ()) : ∀ t ∈ tasks b s.sizes, s.pc t.1 t.2 = .finished (.ok ()) := by
  rw [result] at h
  split at h
  · cases h
  · next hnone =>
    rw [findSome?_eq_none_iff] at hnone
    have herror : ∀ t ∈ tasks b s.sizes, ∀ e, s.pc t.1 t.2 ≠ .finished (.error e) := by
      intro t ht e he
      have := hnone t ht
      rw [he] at this
      cases this
    intro t ht
    have hover := hall t ht
    cases hpc : s.pc t.1 t.2 with
    | finished r =>
      cases r with
      | ok => rfl
      | error e => exact absurd hpc (herror t ht e)
    | skipped =>
      obtain ⟨u, hu, e, he⟩ := hskipped _ _ hpc
      exact absurd he (herror u hu e)
    | _ =>
      rw [hpc] at hover
      cases hover

theorem MainMove.result_ok (h : MainMove b s s') (hok : s'.main.result = some (.ok ())) :
    s.main.result = some (.ok ()) ∨ (s.main = .install ∧
      (∀ t ∈ tasks b s.sizes, (s.pc t.1 t.2).over = true) ∧ result b s = .ok ()) := by
  cases h with
  | collected hmain hover => exact .inr ⟨hmain, hover, Option.some.inj hok⟩
  | joined r hmain => exact .inl (hmain ▸ hok)
  | reported scan r line next hmain =>
    rw [hmain]
    cases next with
    | none | some scan' => exact .inl hok
  | _ => cases hok

theorem MainMove.recorded (hb : precheck b = .ok (sizes, totalSize))
    (hs : s.main = .check ∨ s.sizes = sizes) (h : MainMove b s s') : s'.sizes = sizes := by
  have hkeep : s.main ≠ .check → s.sizes = sizes := fun hne => hs.resolve_left hne
  cases h with
  | rejected message hmain hprecheck =>
    rw [hb] at hprecheck
    cases hprecheck
  | admitted sizes' totalSize' hmain hprecheck =>
    rw [hb] at hprecheck
    cases hprecheck
    rfl
  | built hmain | unbuilt hmain | spawned hmain | unspawned hmain | collected hmain => exact hkeep (hmain ▸ nofun)
  | joined r hmain | lost r hmain => exact hkeep (hmain ▸ nofun)
  | panicked scan r hmain => exact hkeep (hmain ▸ nofun)
  | reported scan r line next hmain => exact hkeep (hmain ▸ nofun)

theorem step_main (h : step b s a = some s') : (s'.main = s.main ∧ s'.sizes = s.sizes) ∨ MainMove b s s' := by
  cases a with
  | start j k =>
    obtain ⟨-, -, rfl⟩ := startStep_spec h
    exact .inl ⟨rfl, rfl⟩
  | skip j k =>
    obtain ⟨-, -, rfl, -⟩ := skipStep_spec h
    exact .inl ⟨rfl, rfl⟩
  | task j k outcome =>
    obtain ⟨file, op, m, pc, -, -, -, -, rfl⟩ := runTask_spec h
    exact .inl ⟨rfl, rfl⟩
  | reporter printed =>
    obtain ⟨-, -, -, hmain, hsizes⟩ := (reporterStep_move h).view
    exact .inl ⟨hmain, hsizes⟩
  | main succeeded => exact .inr (mainStep_move h)

section

variable (hb : precheck b = .ok (sizes, totalSize))

include hb

theorem Pool.step (hs : Pool b sizes s) (h : step b s a = some s') : Pool b sizes s' := by
  have hsizes : s.main = .install → s.sizes = sizes := fun hmain => hs.recorded.resolve_left (hmain ▸ nofun)
  constructor
  · rcases step_main h with ⟨hmain, hsame⟩ | hmain
    · rw [hmain, hsame]
      exact hs.recorded
    · exact .inr (hmain.recorded hb hs.recorded)
  · intro i k hpc
    have hfound : ∃ t ∈ tasks b sizes, ∃ e, s.pc t.1 t.2 = .finished (.error e) := by
      rcases step_skipped h hpc with hbefore | ⟨hmain, hfound⟩
      · exact hs.skipped i k hbefore
      · exact hsizes hmain ▸ hfound
    obtain ⟨t, ht, e, he⟩ := hfound
    exact ⟨t, ht, e, step_finished h he⟩
  · intro hok t ht
    apply step_finished h
    rcases step_main h with ⟨hmain, -⟩ | hmain
    · exact hs.finished (hmain ▸ hok) t ht
    · rcases hmain.result_ok hok with hok' | ⟨hinstall, hover, hresult⟩
      · exact hs.finished hok' t ht
      · have hskipped := hs.skipped
        rw [← hsizes hinstall] at hskipped ht
        exact WriteBatch.result_ok hover hskipped hresult t ht

theorem pool_of_run (h : run b actions (start b) = some s) : Pool b sizes s :=
  run_invariant (fun _ _ _ hs hstep => hs.step hb hstep)
    ⟨.inl rfl, fun _ _ hpc => (by cases hpc), fun hok => (by cases hok)⟩ h

theorem finished_of_result (h : run b actions (start b) = some s) (hresult : s.main.result = some (.ok ()))
    (hi : i < b.parts.length) : ∀ k < (b.operations i).length, s.pc i k = .finished (.ok ()) := by
  intro k hk
  refine (pool_of_run hb h).finished hresult (i, k) (mem_tasks.mpr ⟨?_, hk⟩)
  rwa [(precheck_ok hb).sizes, length_map]

end

structure Idle (s : State) : Prop where
  main : s.main = .check ∨ ∃ message, s.main = .returned (.error (.rejected message))
  pc : s.pc = fun _ _ => .queued
  log : s.log = fun _ => []

theorem Idle.step {message : String} (hb : precheck b = .error message) (hs : Idle s) (h : step b s a = some s') :
    Idle s' := by
  cases a with
  | start j k =>
    rw [WriteBatch.step, startStep] at h
    rcases hs.main with hmain | ⟨m, hmain⟩ <;> rw [hmain] at h <;> cases h
  | skip j k =>
    rw [WriteBatch.step, skipStep] at h
    rcases hs.main with hmain | ⟨m, hmain⟩ <;> rw [hmain] at h <;> cases h
  | task j k outcome =>
    obtain ⟨file, hfile, h⟩ := Option.bind_eq_some_iff.mp h
    obtain ⟨op, hop, h⟩ := Option.bind_eq_some_iff.mp h
    rw [hs.pc] at h
    cases h
  | reporter printed =>
    obtain ⟨-, hlog, hpc, hmain, -⟩ := (reporterStep_move h).view
    exact ⟨hmain ▸ hs.main, hpc ▸ hs.pc, hlog ▸ hs.log⟩
  | main succeeded =>
    obtain ⟨-, hlog, hpc⟩ := (mainStep_move h).view
    refine ⟨?_, hpc ▸ hs.pc, hlog ▸ hs.log⟩
    rw [WriteBatch.step, mainStep] at h
    rcases hs.main with hmain | ⟨m, hmain⟩
    · rw [hmain, hb] at h
      cases h
      exact .inr ⟨message, rfl⟩
    · rw [hmain] at h
      cases h

theorem idle_of_run {message : String} (hb : precheck b = .error message)
    (h : run b actions (start b) = some s) : Idle s :=
  run_invariant (fun _ _ _ hs hstep => hs.step hb hstep) ⟨.inl rfl, rfl, rfl⟩ h

end AeraRecovery.Payload.WriteBatch
