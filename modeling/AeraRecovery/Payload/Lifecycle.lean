import AeraRecovery.Lib.Steps
import AeraRecovery.Payload.Stored

namespace AeraRecovery.Payload.WriteOperation

open Lib Steps Function List Finset

variable (block : UInt64)

/-- How many bytes a task may still add to the count of its target. -/
def Pc.owed (op : InstallOperation) : Pc → Nat
  | .queued | .skipped | .guard | .claim | .entry => (fileOffsets block op.dstExtents).length
  | .next c | .recheck c _ => (c.offsets block).length
  | .write c count rest => (c.offsets block).length + (count - rest.length)
  | _ => 0

def Pc.closing : Pc → Bool
  | .flush | .publish | .abort .flush | .fail .flush | .finished (.error .flush) => true
  | _ => false

/-- One for a task that `remaining` still counts. -/
def Pc.pending : Pc → Nat
  | .flush | .publish | .abort .flush | .fail .flush | .finished (.error .flush) | .finished (.ok _) => 0
  | _ => 1

def Pc.failed : Pc → Bool
  | .raise _ | .abort _ | .fail _ | .finished (.error _) => true
  | _ => false

/-- A target as its tasks see it: the counters, the file, and where the tasks are. -/
structure View where
  target : Target
  log : List Effect
  pc : Nat → Pc

/-- All operations were written when the file was flushed, and nothing was written after that. -/
def Flushed (source : Source) (ops : List InstallOperation) (log : List Effect) : Prop :=
  ∃ before after, log = before ++ .sync :: after ∧ (∀ op ∈ ops, Stored source op before) ∧ writes after = []

/-- A target is active until its last operation was written. Then the task of that operation is alone with it, and
publishes it as written once the file is flushed. -/
inductive Lifecycle (source : Source) (ops : List InstallOperation) (v : View) : Prop
  | active (hopen : ∀ k < ops.length, (v.pc k).closing = false) (hremaining : 0 < v.target.remaining)
      (hphase : v.target.phase ≠ .written)
      (hfailed : v.target.phase = .failed → ∃ k < ops.length, ∃ e, v.pc k = .finished (.error e))
  | closing (k : Nat) (hk : k < ops.length) (hlast : (v.pc k).closing = true)
      (hothers : ∀ j < ops.length, j ≠ k → v.pc j = .finished (.ok ())) (hphase : v.target.phase ≠ .written)
      (hfailed : v.target.phase = .failed → ∃ e, v.pc k = .finished (.error e))
      (hflushed : v.pc k = .publish → Flushed source ops v.log)
  | written (hphase : v.target.phase = .written) (hall : ∀ k < ops.length, v.pc k = .finished (.ok ()))
      (hflushed : Flushed source ops v.log)

def owedAt (ops : List InstallOperation) (k : Nat) (pc : Pc) : Nat :=
  ((ops[k]?).map fun op => pc.owed block op).getD 0

def totalBytes (ops : List InstallOperation) : Nat :=
  ∑ k ∈ Finset.range ops.length, owedAt block ops k .queued

structure View.Sound (source : Source) (ops : List InstallOperation) (v : View) : Prop where
  tasks : ∀ k op, ops[k]? = some op → (v.pc k).Sound source op v.log
  bounded : v.target.done + ∑ k ∈ Finset.range ops.length, owedAt source.block ops k (v.pc k) ≤
    totalBytes source.block ops
  exact : (∀ k < ops.length, (v.pc k).failed = false) →
    totalBytes source.block ops ≤ v.target.done + ∑ k ∈ Finset.range ops.length, owedAt source.block ops k (v.pc k)
  remaining : v.target.remaining = ∑ k ∈ Finset.range ops.length, (v.pc k).pending
  cells : ∀ c ∈ written v.log, ∃ op ∈ ops, c ∈ operationCells source op
  lifecycle : Lifecycle source ops v

def View.move (v : View) (k : Nat) (t : Target) (l : List Effect) (pc : Pc) : View := ⟨t, l, update v.pc k pc⟩

variable {source : Source} {op : InstallOperation} {ops : List InstallOperation} {t t' : Target} {l l' : List Effect}
  {pc pc' : Pc} {v : View} {k : Nat}

theorem View.move_self : (v.move k t' l' pc').pc k = pc' := update_self _ _ _

theorem View.move_of_ne {j : Nat} (h : j ≠ k) : (v.move k t' l' pc').pc j = v.pc j := update_of_ne h _ _

section

variable (h : Move source op t l pc t' l' pc')

include h

theorem Move.counts (hpc : pc.Sound source op l) :
    t'.done + pc'.owed source.block op ≤ t.done + pc.owed source.block op ∧
      (pc'.failed = false → t.done + pc.owed source.block op ≤ t'.done + pc'.owed source.block op) := by
  cases h with
  | start | skip | enter | claim | retired | last | flushed | published | chunk c k buffer reader hk hread =>
    exact ⟨le_rfl, fun _ => le_rfl⟩
  | cancelled | stopped | rejected | broken | withdrawn | unwritten | raised | unflushed | aborted | gaveUp =>
    exact ⟨Nat.add_le_add_left (Nat.zero_le _) _, nofun⟩
  | opened reader hopen =>
    exact ⟨le_rfl, fun _ => le_rfl⟩
  | extent c e es hleft hextents =>
    have hsame : c.offsets source.block = (c.enter source.block e es).offsets source.block := by
      rw [Cursor.offsets, hleft, hextents]
      rfl
    simp only [Pc.owed, hsame]
    exact ⟨le_rfl, fun _ => le_rfl⟩
  | done c hleft hextents hend =>
    have hnil : c.offsets source.block = [] := by
      rw [Cursor.offsets, hleft, hextents]
      rfl
    simp only [Pc.owed, hnil, length_nil]
    exact ⟨le_rfl, fun _ => le_rfl⟩
  | confirmed c buffer =>
    simp only [Pc.owed, Nat.sub_self, add_zero]
    exact ⟨le_rfl, fun _ => le_rfl⟩
  | wrote c count rest k hk =>
    have hadvance := congrArg length (Cursor.offsets_advance (hk.trans hpc.1) source.block)
    have hcount := hpc.2.1
    simp only [length_append, length_range'] at hadvance
    simp only [Pc.owed, length_drop]
    omega
  | counted c count =>
    simp only [Pc.owed, length_nil]
    omega

theorem Move.remaining (hpc : pc.pending ≤ t.remaining) : t'.remaining + pc.pending = t.remaining + pc'.pending := by
  cases h with
  | retired | last =>
    simp only [Pc.pending] at hpc ⊢
    omega
  | aborted e | gaveUp e => cases e <;> rfl
  | _ => rfl

theorem Move.done_le : t.done ≤ t'.done := by
  cases h with
  | counted => exact Nat.le_add_right _ _
  | _ => exact le_rfl

theorem Move.failed (hpc : pc.failed = true) : pc'.failed = true := by
  cases h with
  | raised | aborted | gaveUp => rfl
  | _ => cases hpc

theorem Move.skipped (hpc : pc' = .skipped) : pc = .queued := by
  cases h with
  | skip => rfl
  | _ => cases hpc

end

theorem Pc.eq_finished_of_pending (h : pc.pending = 0) (hclosing : pc.closing = false) : pc = .finished (.ok ()) := by
  cases pc with
  | flush | publish => cases hclosing
  | abort e | fail e =>
    cases e with
    | flush => cases hclosing
    | _ => cases h
  | finished result =>
    cases result with
    | ok => rfl
    | error e =>
      cases e with
      | flush => cases hclosing
      | _ => cases h
  | _ => cases h

theorem View.Sound.others_finished (hv : v.Sound source ops) (hopen : ∀ j < ops.length, (v.pc j).closing = false)
    (hk : k < ops.length) (hpc : v.pc k = .retire) (hremaining : v.target.remaining = 1) :
    ∀ j < ops.length, j ≠ k → v.pc j = .finished (.ok ()) := by
  intro j hj hjk
  have hsum := hv.remaining
  rw [hremaining, ← add_sum_erase _ _ (Finset.mem_range.mpr hk), hpc] at hsum
  have hmem : j ∈ (Finset.range ops.length).erase k := Finset.mem_erase.mpr ⟨hjk, Finset.mem_range.mpr hj⟩
  have hle := single_le_sum (f := fun j => (v.pc j).pending) (fun i _ => Nat.zero_le _) hmem
  refine Pc.eq_finished_of_pending ?_ (hopen j hj)
  have hretire : (Pc.retire).pending = 1 := rfl
  omega

theorem Lifecycle.stay (hopen : ∀ j < ops.length, (v.pc j).closing = false)
    (hfailed : v.target.phase = .failed → ∃ j < ops.length, ∃ e, v.pc j = .finished (.error e)) (hk : k < ops.length)
    (hpc : ∀ e, v.pc k ≠ .finished (.error e)) (hclosing : pc'.closing = false) (hremaining : 0 < t'.remaining)
    (hphase : t'.phase ≠ .written)
    (hfailed' : t'.phase = .failed → v.target.phase = .failed ∨ ∃ e, pc' = .finished (.error e)) :
    Lifecycle source ops (v.move k t' l' pc') := by
  refine .active (fun j hj => ?_) hremaining hphase fun h => ?_
  · by_cases hjk : j = k
    · subst hjk
      rwa [View.move_self]
    · rw [View.move_of_ne hjk]
      exact hopen j hj
  · rcases hfailed' h with h | ⟨e, rfl⟩
    · obtain ⟨j, hj, e, he⟩ := hfailed h
      have hjk : j ≠ k := fun hjk => hpc e (hjk ▸ he)
      exact ⟨j, hj, e, by rwa [View.move_of_ne hjk]⟩
    · exact ⟨k, hk, e, View.move_self⟩

theorem View.Sound.move_active (hv : v.Sound source ops) (hopen : ∀ j < ops.length, (v.pc j).closing = false)
    (hremaining : 0 < v.target.remaining) (hphase : v.target.phase ≠ .written)
    (hfailed : v.target.phase = .failed → ∃ j < ops.length, ∃ e, v.pc j = .finished (.error e))
    (hk : k < ops.length) (hpc : v.pc k = pc) (h : Move source op v.target v.log pc t' l' pc') :
    Lifecycle source ops (v.move k t' l' pc') := by
  have hclosing := hopen k hk
  have stay := @Lifecycle.stay source ops t' l' pc' v k hopen hfailed hk
  rw [hpc] at hclosing stay
  cases h with
  | start | skip | enter | stopped | rejected | opened | broken | extent | chunk | done | withdrawn | confirmed
  | unwritten | wrote | raised => exact stay nofun rfl hremaining hphase .inl
  | cancelled => exact stay nofun rfl hremaining hphase .inl
  | claim =>
    refine stay nofun rfl hremaining ?_ fun h => .inl ?_
    · dsimp only
      split_ifs
      · nofun
      · exact hphase
    · dsimp only at h
      split_ifs at h
      exact h
  | counted c count => exact stay nofun rfl hremaining hphase .inl
  | retired hne => exact stay nofun rfl (show 0 < v.target.remaining - 1 by omega) hphase .inl
  | last hone =>
    have hothers := hv.others_finished hopen hk hpc hone
    refine .closing k hk ?_ ?_ hphase (fun h => ?_) fun h => ?_
    · rw [View.move_self]
      rfl
    · intro j hj hjk
      rw [View.move_of_ne hjk]
      exact hothers j hj hjk
    · obtain ⟨j, hj, e, he⟩ := hfailed h
      by_cases hjk : j = k
      · rw [hjk, hpc] at he
        cases he
      · rw [hothers j hj hjk] at he
        cases he
    · rw [View.move_self] at h
      cases h
  | unflushed | flushed | published => cases hclosing
  | aborted e =>
    cases e with
    | flush => cases hclosing
    | cancelled | operation e => exact stay nofun rfl hremaining hphase .inl
  | gaveUp e =>
    cases e with
    | flush => cases hclosing
    | cancelled | operation e => exact stay nofun rfl hremaining nofun fun _ => .inr ⟨_, rfl⟩

theorem View.Sound.move_closing (hv : v.Sound source ops) (hk : k < ops.length) (hlast : (v.pc k).closing = true)
    (hothers : ∀ j < ops.length, j ≠ k → v.pc j = .finished (.ok ())) (hphase : v.target.phase ≠ .written)
    (hfailed : v.target.phase = .failed → ∃ e, v.pc k = .finished (.error e))
    (hflushed : v.pc k = .publish → Flushed source ops v.log) (hpc : v.pc k = pc)
    (h : Move source op v.target v.log pc t' l' pc') : Lifecycle source ops (v.move k t' l' pc') := by
  have hothers' : ∀ j < ops.length, j ≠ k → (v.move k t' l' pc').pc j = .finished (.ok ()) := by
    intro j hj hjk
    rw [View.move_of_ne hjk]
    exact hothers j hj hjk
  have hnotFailed : (∀ e, pc ≠ .finished (.error e)) → v.target.phase ≠ .failed := by
    intro hne hf
    obtain ⟨e, he⟩ := hfailed hf
    exact hne e (hpc ▸ he)
  have hstored : pc = .flush → ∀ op ∈ ops, Stored source op v.log := by
    intro hflush op hop
    obtain ⟨j, hj, hget⟩ := mem_iff_getElem.mp hop
    have hsound := hv.tasks j op (by rw [getElem?_eq_getElem hj, hget])
    by_cases hjk : j = k
    · rw [hjk, hpc, hflush] at hsound
      exact hsound
    · rw [hothers j hj hjk] at hsound
      exact hsound
  rw [hpc] at hlast hflushed
  cases h with
  | unflushed =>
    refine .closing k hk ?_ hothers' hphase (fun h => absurd h (hnotFailed nofun)) fun h => ?_
    · rw [View.move_self]
      rfl
    · rw [View.move_self] at h
      cases h
  | flushed =>
    refine .closing k hk ?_ hothers' hphase (fun h => absurd h (hnotFailed nofun)) fun _ => ?_
    · rw [View.move_self]
      rfl
    · exact ⟨v.log, [], rfl, hstored rfl, rfl⟩
  | published =>
    refine .written rfl (fun j hj => ?_) (hflushed rfl)
    by_cases hjk : j = k
    · rw [hjk, View.move_self]
    · exact hothers' j hj hjk
  | aborted e =>
    cases e with
    | flush =>
      refine .closing k hk ?_ hothers' hphase (fun h => absurd h (hnotFailed nofun)) fun h => ?_
      · rw [View.move_self]
        rfl
      · rw [View.move_self] at h
        cases h
    | _ => cases hlast
  | gaveUp e =>
    cases e with
    | flush =>
      refine .closing k hk ?_ hothers' nofun (fun _ => ⟨_, View.move_self⟩) fun h => ?_
      · rw [View.move_self]
        rfl
      · rw [View.move_self] at h
        cases h
    | _ => cases hlast
  | _ => cases hlast

theorem not_move_finished {result : Except TaskError Unit} : ¬ Move source op t l (.finished result) t' l' pc' := nofun

section

variable (hv : v.Sound source ops)

include hv

theorem View.Sound.move_lifecycle (hk : k < ops.length)
    (h : Move source op v.target v.log (v.pc k) t' l' pc') : Lifecycle source ops (v.move k t' l' pc') := by
  cases hv.lifecycle with
  | active hopen hremaining hphase hfailed => exact hv.move_active hopen hremaining hphase hfailed hk rfl h
  | closing j hj hlast hothers hphase hfailed hflushed =>
    by_cases hkj : k = j
    · subst hkj
      exact hv.move_closing hk hlast hothers hphase hfailed hflushed rfl h
    · rw [hothers k hk hkj] at h
      exact absurd h not_move_finished
  | written hphase hall hflushed =>
    rw [hall k hk] at h
    exact absurd h not_move_finished

theorem View.Sound.move (hop : ops[k]? = some op)
    (h : Move source op v.target v.log (v.pc k) t' l' pc') : (v.move k t' l' pc').Sound source ops := by
  obtain ⟨hk, -⟩ := List.getElem?_eq_some_iff.mp hop
  have hpc := hv.tasks k op hop
  have howed : ∀ pc, owedAt source.block ops k pc = pc.owed source.block op := by
    intro pc
    rw [owedAt, hop]
    rfl
  have hsum := sum_threads_update hk (owedAt source.block ops) v.pc pc'
  have hdone := h.counts hpc
  rw [howed, howed] at hsum
  constructor
  · intro j o ho
    obtain ⟨extra, rfl⟩ := h.log_append
    by_cases hjk : j = k
    · subst hjk
      obtain rfl := Option.some.inj (ho.symm.trans hop)
      rw [View.move_self]
      exact h.sound hpc
    · rw [View.move_of_ne hjk]
      exact (hv.tasks j o ho).mono extra
  · have hbounded := hv.bounded
    simp only [View.move]
    omega
  · intro hall
    have hpc' : pc'.failed = false := by
      have := hall k hk
      rwa [View.move_self] at this
    have hpcFailed : (v.pc k).failed = false := by
      cases hf : (v.pc k).failed with
      | false => rfl
      | true =>
        rw [h.failed hf] at hpc'
        cases hpc'
    have hbefore := hv.exact fun j hj => by
      by_cases hjk : j = k
      · rwa [hjk]
      · have := hall j hj
        rwa [View.move_of_ne hjk] at this
    have hexact := hdone.2 hpc'
    simp only [View.move]
    omega
  · have hpending := sum_threads_update hk (fun _ => Pc.pending) v.pc pc'
    have hle := single_le_sum (f := fun j => (v.pc j).pending) (fun i _ => Nat.zero_le _)
      (Finset.mem_range.mpr hk)
    rw [← hv.remaining] at hpending hle
    have hremaining := h.remaining hle
    simp only [View.move]
    omega
  · intro c hc
    rcases h.written hpc c hc with hc | hc
    · exact hv.cells c hc
    · exact ⟨op, mem_of_getElem? hop, hc⟩
  · exact hv.move_lifecycle hk h

theorem View.Sound.of_written (hphase : v.target.phase = .written) :
    Flushed source ops v.log ∧ (∀ k < ops.length, v.pc k = .finished (.ok ())) ∧
      v.target.done = totalBytes source.block ops := by
  cases hv.lifecycle with
  | active _ _ hne | closing _ _ _ _ hne => exact absurd hphase hne
  | written _ hall hflushed =>
    refine ⟨hflushed, hall, ?_⟩
    have hzero : ∑ k ∈ Finset.range ops.length, owedAt source.block ops k (v.pc k) = 0 := by
      refine Finset.sum_eq_zero fun k hk => ?_
      rw [hall k (Finset.mem_range.mp hk), owedAt]
      cases ops[k]? <;> rfl
    have hexact := hv.exact fun k hk => by rw [hall k hk]; rfl
    have hbounded := hv.bounded
    omega

theorem View.Sound.written_of_finished
    (hall : ∀ k < ops.length, v.pc k = .finished (.ok ())) : v.target.phase = .written := by
  cases hv.lifecycle with
  | active _ hremaining =>
    have hzero : ∑ k ∈ Finset.range ops.length, (v.pc k).pending = 0 :=
      Finset.sum_eq_zero fun k hk => by rw [hall k (Finset.mem_range.mp hk)]; rfl
    have := hv.remaining
    omega
  | closing k hk hlast =>
    rw [hall k hk] at hlast
    cases hlast
  | written hphase => exact hphase

theorem View.Sound.phase_stable (hk : k < ops.length) (h : Move source op v.target v.log (v.pc k) t' l' pc') :
    (v.target.phase = .written → t'.phase = .written) ∧ (v.target.phase = .failed → t'.phase = .failed) := by
  constructor
  · intro hphase
    rw [(hv.of_written hphase).2.1 k hk] at h
    exact absurd h not_move_finished
  · intro hphase
    generalize hpc : v.pc k = pc at h
    cases h with
    | claim =>
      rw [hphase]
      rfl
    | published =>
      cases hv.lifecycle with
      | active hopen =>
        have := hopen k hk
        rw [hpc] at this
        cases this
      | closing j hj hlast hothers _ hfailed =>
        obtain ⟨e, he⟩ := hfailed hphase
        by_cases hkj : k = j
        · rw [← hkj, hpc] at he
          cases he
        · rw [hothers k hk hkj] at hpc
          cases hpc
      | written hw =>
        rw [hphase] at hw
        cases hw
    | gaveUp => rfl
    | _ => exact hphase

end

end AeraRecovery.Payload.WriteOperation
