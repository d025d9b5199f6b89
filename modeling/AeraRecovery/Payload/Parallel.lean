import AeraRecovery.Lib.Steps

namespace AeraRecovery.Payload.Parallel

open Lib.Steps Function List Option Nat

/-- A thread: before it is created, at the top of its loop, in `work`, before it records that `work` failed, and at its
end. -/
inductive Worker
  | absent
  | waiting
  | running (index : Nat)
  | failing
  | returned
  deriving DecidableEq

inductive Main
  | creating
  | releasing
  | joining
  | returned (result : Bool)
  deriving DecidableEq

/-- The variables of `RunParallelImages`. `refused` says that a thread could not be created; `calls` are the indices that
`work` was called with, `results` what it returned. -/
structure State where
  main : Main
  released : Bool := false
  failed : Bool := false
  next : Nat := 0
  created : Nat := 0
  joined : Nat := 0
  workers : Nat → Worker := fun _ => .absent
  refused : Bool := false
  calls : List Nat := []
  results : List (Nat × Bool) := []

/-- The sections under the lock, and the ends of the calls that are made outside of it. -/
inductive Label
  | create (okay : Bool)
  | release
  | join
  | finish
  | take (k : Nat)
  | complete (k : Nat)
  | record (k : Nat)

section

variable (count lanes : Nat) (work : Nat → Bool)

def initial : State := { main := if count = 0 ∨ lanes = 0 then .returned false else .creating }

def create (s : State) (okay : Bool) : State :=
  if okay then
    { s with
      workers := update s.workers s.created .waiting
      created := s.created + 1
      main := if s.created + 1 < min lanes count then .creating else .releasing }
  else { s with failed := true, refused := true, main := .releasing }

def take (s : State) (k : Nat) : State :=
  if s.failed ∨ s.next = count then { s with workers := update s.workers k .returned }
  else
    { s with
      workers := update s.workers k (.running s.next)
      next := s.next + 1
      calls := s.calls ++ [s.next] }

def step (s : State) : Label → Option State
  | .create okay => if s.main = .creating then some (create count lanes s okay) else none
  | .release => if s.main = .releasing then some { s with released := true, main := .joining } else none
  | .join =>
    if s.main = .joining ∧ s.joined < s.created ∧ s.workers s.joined = .returned then
      some { s with joined := s.joined + 1 }
    else none
  | .finish =>
    if s.main = .joining ∧ s.joined = s.created then some { s with main := .returned (!s.failed) } else none
  | .take k => if s.workers k = .waiting ∧ s.released then some (take count s k) else none
  | .complete k =>
    match s.workers k with
    | .running i =>
      some { s with
        workers := update s.workers k (if work i then .waiting else .failing)
        results := s.results ++ [(i, work i)] }
    | .absent | .waiting | .failing | .returned => none
  | .record k =>
    if s.workers k = .failing then
      some { s with workers := update s.workers k .returned, failed := true }
    else none

end

structure Inv (count lanes : Nat) (work : Nat → Bool) (s : State) : Prop where
  calls : s.calls = range s.next
  next : s.next ≤ count
  created : s.created ≤ min lanes count
  creating : s.main = .creating → s.created < min lanes count
  full : s.main ≠ .creating → s.refused = false → s.created = min lanes count
  absent : ∀ k, s.workers k = .absent ↔ s.created ≤ k
  live : (∃ r, s.main = .returned r) ∨ 0 < min lanes count
  early : s.main = .creating ∨ s.main = .releasing → s.released = false
  late : s.main = .joining → s.released = true
  still : s.released = false → s.next = 0 ∧ ∀ k, s.workers k = .absent ∨ s.workers k = .waiting
  refused : s.refused = true → s.failed = true ∧ s.next = 0
  covered : ∀ i < s.next, (∃ b, (i, b) ∈ s.results) ∨ ∃ k, s.workers k = .running i
  results : ∀ r ∈ s.results, r.2 = work r.1 ∧ r.1 < s.next
  failing : ∀ i, (i, false) ∈ s.results → s.failed = true ∨ ∃ k, s.workers k = .failing
  failed : s.failed = true → s.refused = true ∨ ∃ i, (i, false) ∈ s.results ∧ i < s.next
  cause : ∀ k, s.workers k = .failing → ∃ i, (i, false) ∈ s.results ∧ i < s.next
  running : ∀ k i, s.workers k = .running i → i < s.next
  returned : ∀ k, s.workers k = .returned → s.failed = true ∨ s.next = count
  joined : s.joined ≤ s.created ∧ ∀ k < s.joined, s.workers k = .returned
  done : ∀ r, s.main = .returned r → s.joined = s.created ∧ (r = true ↔ s.failed = false ∧ 0 < min lanes count)

section

variable {count lanes : Nat} {work : Nat → Bool} {s s' : State} {k : Nat}

theorem exists_update {u v w : Worker} (hk : s.workers k = u) (huv : u ≠ v) (h : ∃ j, s.workers j = v) :
    ∃ j, update s.workers k w j = v := by
  obtain ⟨j, hj⟩ := h
  have hjk : j ≠ k := fun hjk => huv (hk ▸ hjk ▸ hj)
  exact ⟨j, by rwa [update_of_ne hjk]⟩

theorem inv_initial : Inv count lanes work (initial count lanes) := by
  by_cases hlanes : count = 0 ∨ lanes = 0
  · have hmin : min lanes count = 0 := by omega
    constructor <;> simp [initial, hlanes, hmin]
  · have hmin : 0 < min lanes count := by omega
    constructor <;> simp [initial, hlanes, hmin]

theorem Inv.lt_created {w : Worker} (h : Inv count lanes work s) (hk : s.workers k = w) (hw : w ≠ .absent) :
    k < s.created :=
  not_le.mp fun hle => hw (hk ▸ (h.absent k).mpr hle)

section

variable (h : Inv count lanes work s)

include h

theorem Inv.create (hmain : s.main = .creating) (okay : Bool) : Inv count lanes work (create count lanes s okay) := by
  have hcreated := h.creating hmain
  have hreleased := h.early (.inl hmain)
  obtain ⟨hnext, hworkers⟩ := h.still hreleased
  rw [Parallel.create]
  cases okay with
  | false =>
    exact { h with
      creating := fun hmain => by cases hmain
      full := fun _ hrefused => by cases hrefused
      live := .inr (zero_lt_of_lt hcreated)
      early := fun _ => hreleased
      late := fun hmain => by cases hmain
      refused := fun _ => ⟨rfl, hnext⟩
      failing := fun _ _ => .inl rfl
      failed := fun _ => .inl rfl
      returned := fun _ _ => .inl rfl
      done := fun _ hmain => by cases hmain }
  | true =>
    exact { h with
      created := hcreated
      creating := by grind
      full := by grind
      absent := by grind [h.absent]
      live := .inr (zero_lt_of_lt hcreated)
      early := fun _ => hreleased
      late := by grind
      still := by grind
      covered := by grind
      failing := by grind [h.failing]
      cause := by grind
      running := by grind
      returned := by grind
      joined := by grind [h.joined]
      done := by grind }

theorem Inv.release (hmain : s.main = .releasing) :
    Inv count lanes work { s with released := true, main := .joining } :=
  { h with
    creating := fun hmain => by cases hmain
    full := fun _ => h.full (by simp [hmain])
    live := .inr (h.live.resolve_left (by simp [hmain]))
    early := fun hmain => by rcases hmain with hmain | hmain <;> cases hmain
    late := fun _ => rfl
    still := fun hreleased => by cases hreleased
    done := fun _ hmain => by cases hmain }

theorem Inv.join (hlt : s.joined < s.created)
    (hreturned : s.workers s.joined = .returned) (hmain : s.main = .joining) :
    Inv count lanes work { s with joined := s.joined + 1 } :=
  { h with
    joined := ⟨hlt, fun k hk => by
      rcases Nat.lt_succ_iff_lt_or_eq.mp hk with hk | rfl
      · exact h.joined.2 k hk
      · exact hreturned⟩
    done := fun _ hdone => by
      rw [hmain] at hdone
      cases hdone }

theorem Inv.finish (hmain : s.main = .joining) (hjoined : s.joined = s.created) :
    Inv count lanes work { s with main := .returned (!s.failed) } :=
  { h with
    creating := fun hmain => by cases hmain
    full := fun _ => h.full (by simp [hmain])
    live := .inl ⟨_, rfl⟩
    early := fun hmain => by rcases hmain with hmain | hmain <;> cases hmain
    late := fun hmain => by cases hmain
    done := fun _ hreturned => by
      cases hreturned
      have hlanes := h.live.resolve_left (by simp [hmain])
      exact ⟨hjoined, by simp [hlanes]⟩ }

theorem Inv.take (hworker : s.workers k = .waiting) (hreleased : s.released = true) :
    Inv count lanes work (take count s k) := by
  have hcovered (w : Worker) (i : Nat) (hi : i < s.next) := (h.covered i hi).imp_right
    (exists_update (w := w) hworker (by simp))
  have hfailing (w : Worker) (i : Nat) (hi : (i, false) ∈ s.results) := (h.failing i hi).imp_right
    (exists_update (w := w) hworker (by simp))
  rw [Parallel.take]
  split_ifs with hstop
  · exact { h with
      absent := by grind [h.absent]
      still := by grind
      covered := hcovered _
      failing := hfailing _
      cause := fun j hj => h.cause j (of_update hj (by simp)).2
      running := fun j i hj => h.running j i (of_update hj (by simp)).2
      returned := by grind [h.returned]
      joined := by grind [h.joined] }
  · have hnext := h.next
    have hlt : s.next < count := by grind
    exact { h with
      calls := by rw [h.calls, range_succ]
      next := hlt
      absent := by grind [h.absent]
      still := by grind
      refused := by grind [h.refused]
      covered := fun i hi => by
        rcases Nat.lt_succ_iff_lt_or_eq.mp hi with hi | rfl
        · exact hcovered _ i hi
        · exact .inr ⟨k, update_self ..⟩
      results := fun r hr => ⟨(h.results r hr).1, lt_succ_of_lt (h.results r hr).2⟩
      failing := hfailing _
      failed := by grind
      cause := fun j hj => by
        obtain ⟨i, hi, hlt⟩ := h.cause j (of_update hj (by simp)).2
        exact ⟨i, hi, lt_succ_of_lt hlt⟩
      running := fun j i hj => by
        rcases update_cases hj with ⟨-, hj⟩ | ⟨-, hj⟩
        · cases hj
          exact lt_succ_self _
        · exact lt_succ_of_lt (h.running j i hj)
      returned := by grind [h.returned]
      joined := by grind [h.joined] }

end

theorem Inv.complete {i : Nat} (h : Inv count lanes work s) (hworker : s.workers k = .running i) :
    Inv count lanes work { s with
      workers := update s.workers k (if work i then .waiting else .failing)
      results := s.results ++ [(i, work i)] } := by
  have hlt := h.running k i hworker
  exact { h with
    absent := by grind [h.absent]
    still := by grind [h.still]
    covered := fun j hj => by
      by_cases hij : j = i
      · exact .inl ⟨work i, by simp [hij]⟩
      · refine (h.covered j hj).imp (fun ⟨b, hb⟩ => ⟨b, mem_append_left _ hb⟩) (exists_update hworker ?_)
        simpa using Ne.symm hij
    results := fun r hr => by
      rcases mem_append.mp hr with hr | hr
      · exact h.results r hr
      · rw [mem_singleton.mp hr]
        exact ⟨rfl, hlt⟩
    failing := fun j hj => by
      rcases mem_append.mp hj with hj | hj
      · exact (h.failing j hj).imp_right (exists_update hworker (by simp))
      · exact .inr ⟨k, by grind⟩
    failed := by grind [h.failed]
    cause := fun j hj => by
      rcases update_cases hj with ⟨-, hj⟩ | ⟨-, hj⟩
      · exact ⟨i, by grind, hlt⟩
      · obtain ⟨l, hl, hlt⟩ := h.cause j hj
        exact ⟨l, mem_append_left _ hl, hlt⟩
    running := fun j l hj => by
      rcases update_cases hj with ⟨-, hj⟩ | ⟨-, hj⟩
      · grind
      · exact h.running j l hj
    returned := by grind [h.returned]
    joined := by grind [h.joined] }

theorem Inv.record (h : Inv count lanes work s) (hworker : s.workers k = .failing) :
    Inv count lanes work { s with workers := update s.workers k .returned, failed := true } := by
  have hcreated := h.lt_created hworker (by simp)
  exact { h with
    absent := by grind [h.absent]
    still := by grind [h.still]
    refused := fun hrefused => ⟨rfl, (h.refused hrefused).2⟩
    covered := fun i hi => (h.covered i hi).imp_right (exists_update hworker (by simp))
    failing := fun _ _ => .inl rfl
    failed := fun _ => .inr (h.cause k hworker)
    cause := fun j hj => h.cause j (of_update hj (by simp)).2
    running := fun j i hj => h.running j i (of_update hj (by simp)).2
    returned := fun _ _ => .inl rfl
    joined := by grind [h.joined]
    done := fun r hr => by
      -- the main thread returned only after this one did
      obtain ⟨hjoined, -⟩ := h.done r hr
      rw [h.joined.2 k (hjoined ▸ hcreated)] at hworker
      cases hworker }

theorem Inv.step {a : Label} (h : Inv count lanes work s) (hstep : step count lanes work s a = some s') :
    Inv count lanes work s' := by
  cases a with
  | create okay =>
    obtain ⟨hmain, rfl⟩ := by simpa [Parallel.step] using hstep
    exact h.create hmain okay
  | release =>
    obtain ⟨hmain, rfl⟩ := by simpa [Parallel.step] using hstep
    exact h.release hmain
  | join =>
    obtain ⟨⟨hmain, hlt, hreturned⟩, rfl⟩ := by simpa [Parallel.step] using hstep
    exact h.join hlt hreturned hmain
  | finish =>
    obtain ⟨⟨hmain, hjoined⟩, rfl⟩ := by simpa [Parallel.step] using hstep
    exact h.finish hmain hjoined
  | take k =>
    obtain ⟨⟨hworker, hreleased⟩, rfl⟩ := by simpa [Parallel.step] using hstep
    exact h.take hworker hreleased
  | complete k =>
    rw [Parallel.step] at hstep
    split at hstep
    · exact some.inj hstep ▸ h.complete ‹_›
    all_goals cases hstep
  | record k =>
    obtain ⟨hworker, rfl⟩ := by simpa [Parallel.step] using hstep
    exact h.record hworker

theorem inv_run {l : List Label} (hrun : l.foldlM (step count lanes work) (initial count lanes) = some s) :
    Inv count lanes work s :=
  run_invariant (fun _ _ _ h hstep => h.step hstep) inv_initial hrun

theorem step_failed {a : Label} (hstep : step count lanes work s a = some s') (hfailed : s.failed = true) :
    s'.failed = true ∧ s'.calls = s.calls := by
  cases a with
  | create okay =>
    obtain ⟨hmain, rfl⟩ := by simpa [step] using hstep
    cases okay <;> simp [create, hfailed]
  | take k =>
    obtain ⟨⟨hworker, hreleased⟩, rfl⟩ := by simpa [step] using hstep
    simp [take, hfailed]
  | complete k =>
    rw [step] at hstep
    split at hstep
    · exact some.inj hstep ▸ ⟨hfailed, rfl⟩
    all_goals cases hstep
  | release | join | finish | record k =>
    obtain ⟨-, rfl⟩ := by simpa [step] using hstep
    simp [hfailed]

theorem run_failed {l : List Label} (hrun : l.foldlM (step count lanes work) s = some s')
    (hfailed : s.failed = true) : s'.calls = s.calls := by
  have hkeep := run_invariant (I := fun t => t.failed = true ∧ t.calls = s.calls) ?_ ⟨hfailed, rfl⟩ hrun
  · exact hkeep.2
  · intro t a t' ht hstep
    obtain ⟨hfailed', hcalls⟩ := step_failed hstep ht.1
    exact ⟨hfailed', hcalls.trans ht.2⟩

section

variable {r : Bool} (h : Inv count lanes work s) (hmain : s.main = .returned r)

include h hmain

theorem Inv.returned_worker (k : Nat) : s.workers k = .absent ∨ s.workers k = .returned := by
  by_cases hk : k < s.created
  · exact .inr (h.joined.2 k ((h.done r hmain).1 ▸ hk))
  · exact .inl ((h.absent k).mpr (not_lt.mp hk))

theorem Inv.returned_iff : r = true ↔ 0 < min lanes count ∧ ∀ i < count, (i, true) ∈ s.results := by
  obtain ⟨hjoined, hr⟩ := h.done r hmain
  have hworkers := h.returned_worker hmain
  rw [hr]
  constructor
  · rintro ⟨hfailed, hlanes⟩
    have hrefused : s.refused = false := by
      by_contra hrefused
      have hset := (h.refused (by simpa using hrefused)).1
      simp [hfailed] at hset
    have hcreated := h.full (by simp [hmain]) hrefused
    -- there is a thread, and without a failure it can only have stopped at the end
    have hnext : s.next = count := by
      have hfirst := h.joined.2 0 (by omega)
      simpa [hfailed] using h.returned 0 hfirst
    refine ⟨hlanes, fun i hi => ?_⟩
    rcases h.covered i (hnext ▸ hi) with ⟨b, hb⟩ | ⟨k, hk⟩
    · cases b with
      | true => exact hb
      | false =>
        rcases h.failing i hb with hset | ⟨k, hk⟩
        · simp [hfailed] at hset
        · simpa [hk] using hworkers k
    · simpa [hk] using hworkers k
  · rintro ⟨hlanes, hresults⟩
    refine ⟨?_, hlanes⟩
    by_contra hfailed
    rcases h.failed (by simpa using hfailed) with hrefused | ⟨i, hi, hlt⟩
    · have hfirst := (h.results _ (hresults 0 (by omega))).2
      rw [(h.refused hrefused).2] at hfirst
      exact absurd hfirst (not_lt_zero _)
    · have htrue := (h.results _ (hresults i (lt_of_lt_of_le hlt h.next))).1
      have hfalse := (h.results _ hi).1
      exact Bool.noConfusion (htrue.trans hfalse.symm)

end

end

section

variable {count lanes : Nat} {work : Nat → Bool} {s s' : State}

def Worker.weight : Worker → Nat
  | .absent | .returned => 0
  | .waiting => 1
  | .failing => 2
  | .running _ => 3

def Main.weight (n created joined : Nat) : Main → Nat
  | .creating => 2 * (n - created) + n + 2
  | .releasing => n + 2
  | .joining => n - joined + 1
  | .returned _ => 0

def measure (count lanes : Nat) (s : State) : Nat :=
  s.main.weight (min lanes count) s.created s.joined + 3 * (count - s.next) +
    ∑ k ∈ Finset.range (min lanes count), (s.workers k).weight

theorem Inv.sum_update {k : Nat} {w v : Worker} (h : Inv count lanes work s) (hk : s.workers k = w) (hw : w ≠ .absent) :
    (∑ i ∈ Finset.range (min lanes count), (update s.workers k v i).weight) + w.weight =
      (∑ i ∈ Finset.range (min lanes count), (s.workers i).weight) + v.weight := by
  have hlt := lt_of_lt_of_le (h.lt_created hk hw) h.created
  simpa only [hk] using sum_threads_update hlt (fun _ => Worker.weight) s.workers v

theorem measure_create (h : Inv count lanes work s) (hmain : s.main = .creating) (okay : Bool) :
    measure count lanes (create count lanes s okay) < measure count lanes s := by
  have hlt := h.creating hmain
  cases okay with
  | false =>
    simp only [create, measure, hmain, Main.weight, Bool.false_eq_true, if_false]
    omega
  | true =>
    have hsum := sum_threads_update hlt (fun _ => Worker.weight) s.workers .waiting
    have habsent := (h.absent s.created).mpr (le_rfl)
    have hnew : Worker.weight .waiting = 1 := rfl
    simp only [create, measure, hmain, habsent, if_true] at hsum ⊢
    split_ifs <;> simp only [Main.weight] <;> omega

theorem measure_take {k : Nat} (h : Inv count lanes work s) (hworker : s.workers k = .waiting) :
    measure count lanes (take count s k) < measure count lanes s := by
  have hnext := h.next
  rw [take]
  split_ifs with hstop
  · have hsum := h.sum_update (v := .returned) hworker (by simp)
    simp only [measure, Worker.weight] at hsum ⊢
    omega
  · have hsum := h.sum_update (v := .running s.next) hworker (by simp)
    simp only [measure, Worker.weight] at hsum ⊢
    omega

theorem measure_step {a : Label} (h : Inv count lanes work s) (hstep : step count lanes work s a = some s') :
    measure count lanes s' < measure count lanes s := by
  have hcreated := h.created
  cases a with
  | create okay =>
    obtain ⟨hmain, rfl⟩ := by simpa [step] using hstep
    exact measure_create h hmain okay
  | release =>
    obtain ⟨hmain, rfl⟩ := by simpa [step] using hstep
    simp only [measure, hmain, Main.weight]
    omega
  | join =>
    obtain ⟨⟨hmain, hlt, hreturned⟩, rfl⟩ := by simpa [step] using hstep
    simp only [measure, hmain, Main.weight]
    omega
  | finish =>
    obtain ⟨⟨hmain, hjoined⟩, rfl⟩ := by simpa [step] using hstep
    simp only [measure, hmain, Main.weight]
    omega
  | take k =>
    obtain ⟨⟨hworker, hreleased⟩, rfl⟩ := by simpa [step] using hstep
    exact measure_take h hworker
  | complete k =>
    rw [step] at hstep
    split at hstep
    case h_1 i hworker =>
      cases hstep
      have hsum := h.sum_update (v := if work i then .waiting else .failing) hworker (by simp)
      have hless : (if work i then Worker.waiting else .failing).weight < (Worker.running i).weight := by
        cases work i <;> simp [Worker.weight]
      simp only [measure]
      omega
    all_goals cases hstep
  | record k =>
    obtain ⟨hworker, rfl⟩ := by simpa [step] using hstep
    have hsum := h.sum_update (v := .returned) hworker (by simp)
    simp only [measure, Worker.weight] at hsum ⊢
    omega

theorem measure_run {l : List Label} (h : Inv count lanes work s)
    (hrun : l.foldlM (step count lanes work) s = some s') :
    l.length + measure count lanes s' ≤ measure count lanes s := by
  induction l generalizing s with
  | nil => simp [some.inj hrun]
  | cons a l ih =>
    obtain ⟨next, hnext, hrest⟩ := bind_eq_some_iff.mp hrun
    have hlt := measure_step h hnext
    have hle := ih (h.step hnext) hrest
    rw [length_cons]
    omega

theorem measure_initial_le : measure count lanes (initial count lanes) ≤ 3 * (count + min lanes count) + 2 := by
  simp only [measure, initial, Worker.weight, Finset.sum_const_zero]
  split_ifs <;> simp only [Main.weight] <;> omega

theorem Inv.progress (h : Inv count lanes work s) (hmain : ∀ r, s.main ≠ .returned r) :
    ∃ a s', Parallel.step count lanes work s a = some s' := by
  cases hphase : s.main with
  | creating => exact ⟨.create true, _, if_pos hphase⟩
  | releasing => exact ⟨.release, _, if_pos hphase⟩
  | returned r => exact absurd hphase (hmain r)
  | joining =>
    by_cases hall : s.joined = s.created
    · exact ⟨.finish, _, if_pos ⟨hphase, hall⟩⟩
    have hlt : s.joined < s.created := lt_of_le_of_ne h.joined.1 hall
    -- the thread that is waited for can go on
    cases hworker : s.workers s.joined with
    | absent => exact absurd ((h.absent _).mp hworker) (not_le.mpr hlt)
    | waiting => exact ⟨.take s.joined, _, if_pos ⟨hworker, h.late hphase⟩⟩
    | running i => exact ⟨.complete s.joined, _, by rw [Parallel.step, hworker]⟩
    | failing => exact ⟨.record s.joined, _, if_pos hworker⟩
    | returned => exact ⟨.join, _, if_pos ⟨hphase, hlt, hworker⟩⟩

end

/-- Every run of `RunParallelImages` hands out an index at most once, none if a thread could not be created and none
after a failure is recorded; it comes to its end, all threads that exist being joined, and the result says whether
every image was written. -/
theorem runParallelImages_correct (count lanes : Nat) (work : Nat → Bool) {l : List Label} {s : State}
    (hrun : l.foldlM (step count lanes work) (initial count lanes) = some s) :
    s.calls.Nodup ∧ (s.refused = true → s.calls = []) ∧
      (s.failed = true → ∀ (l' : List Label) (t : State), l'.foldlM (step count lanes work) s = some t → t.calls = s.calls) ∧
      (∀ r, s.main = .returned r → s.joined = s.created ∧ (∀ k < s.created, s.workers k = .returned) ∧
          (r = true ↔ count ≠ 0 ∧ lanes ≠ 0 ∧ ∀ i < count, i ∈ s.calls ∧ (i, true) ∈ s.results)) ∧
      l.length ≤ 3 * (count + min lanes count) + 2 ∧
      ((∀ r, s.main ≠ .returned r) → ∃ a t, step count lanes work s a = some t) := by
  have h := inv_run hrun
  refine ⟨h.calls ▸ nodup_range, fun hrefused => ?_, fun hfailed l' t ht => run_failed ht hfailed,
    fun r hr => ⟨(h.done r hr).1, fun k hk => h.joined.2 k ((h.done r hr).1 ▸ hk), ?_⟩, ?_, h.progress⟩
  · rw [h.calls, (h.refused hrefused).2, range_zero]
  · have hcalled (i : Nat) (hi : (i, true) ∈ s.results) : i ∈ s.calls := by
      rw [h.calls]
      exact mem_range.mpr (h.results _ hi).2
    rw [h.returned_iff hr, Nat.lt_min, Nat.pos_iff_ne_zero, Nat.pos_iff_ne_zero, and_comm (a := lanes ≠ 0), and_assoc]
    exact and_congr_right fun _ => and_congr_right fun _ => forall₂_congr fun i _ =>
      ⟨fun hi => ⟨hcalled i hi, hi⟩, And.right⟩
  · have hle := measure_run inv_initial hrun
    have hbound := @measure_initial_le count lanes
    omega

theorem runParallelImages_two :
    let l : List Label := [.create true, .create true, .release, .take 1, .take 0, .complete 0, .complete 1, .record 1,
      .take 0, .join, .join, .finish]
    ∃ s, l.foldlM (step 2 3 (fun i => i = 1)) (initial 2 3) = some s ∧ s.main = .returned false ∧ s.calls.Nodup := by
  intro l
  exact ⟨_, rfl, rfl, (runParallelImages_correct 2 3 (fun i => i = 1) (l := l) rfl).1⟩

end AeraRecovery.Payload.Parallel
