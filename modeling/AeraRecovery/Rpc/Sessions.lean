import AeraRecovery.Rpc.Dispatcher

namespace AeraRecovery.Rpc

open Lib Bytes Steps List Option Function

def Body.IsResult : Body → Prop
  | .result _ => True
  | .note _ | .progress _ _ => False

def Core.Running (s : Core) (n : Nat) : Prop := s.accepted n ≠ none ∧ s.worker n ≠ .finished

def Complete (events : List Event) : Prop :=
  ∃ before last, events = before ++ [last] ∧ last.body.IsResult ∧ ∀ e ∈ before, ¬ e.body.IsResult

structure Inv (s : Core) : Prop where
  idle : s.active = false → s.output = none ∧ s.log = none
  busy : s.active = true → ∃ n stream, s.output = some n ∧ s.accepted n = some s.request ∧ s.worker n ≠ .finished ∧
    s.log = some stream ∧ stream.output = n ∧ stream.id = s.request.id
  single : ∀ n, s.Running n → s.active = true ∧ s.output = some n
  unused : ∀ n, s.accepted n = none → s.worker n = .absent ∧ s.written n = []
  fresh : ∀ n, s.starts ≤ n → s.accepted n = none
  ids : ∀ n r, s.accepted n = some r → ∀ e ∈ s.written n, e.id = r.id
  running : ∀ n, s.worker n ≠ .finished → ∀ e ∈ s.written n, ¬ e.body.IsResult
  closed : ∀ n, s.worker n = .finished → Complete (s.written n)

inductive CoreStep (s : Core) : Core → Prop
  | same : CoreStep s s
  | start (hasOutput : Bool) (request : Request) (opens : Bool) : CoreStep s (s.start hasOutput request opens).2
  | check (n : Nat) (h : s.worker n = .started) :
      CoreStep s { s with worker := update s.worker n (if s.active then .checked else .finished) }
  | load (n : Nat) (h : s.worker n = .checked) :
      CoreStep s { s with worker := update s.worker n (.executing s.request) }
  | close (n : Nat) (request : Request) (result : Int) (h : s.worker n = .executing request) :
      CoreStep s { s.closeSession result with worker := update s.worker n .finished }
  | send (b : Body) (h : ¬ b.IsResult) : CoreStep s (s.send s.output [⟨s.request.id, b⟩])
  | print (text : Bytes) : CoreStep s (s.print text)

theorem step_core {s s' : State} {l : Label} (h : step s l = some s') : CoreStep s.toCore s'.toCore := by
  cases l with
  | start hasOutput request opens =>
    cases h
    exact .start hasOutput request opens
  | check n =>
    obtain ⟨hn, h⟩ := ite_none_right_eq_some.mp h
    cases h
    exact .check n hn
  | load n =>
    obtain ⟨hn, h⟩ := ite_none_right_eq_some.mp h
    cases h
    exact .load n hn
  | close n result =>
    rw [step] at h
    split at h
    · cases h
      exact .close n _ result ‹_›
    all_goals cases h
  | emit n =>
    cases h
    exact .send _ id
  | print text =>
    cases h
    exact .print text
  | checkProgress call =>
    cases h
    exact .same
  | writeProgress call phase percent =>
    obtain ⟨-, h⟩ := ite_none_right_eq_some.mp h
    cases h
    exact .send _ id
  | checkCancel call =>
    obtain ⟨-, h⟩ := ite_none_right_eq_some.mp h
    cases h
    exact .same
  | storeCancel call =>
    rw [step] at h
    split at h
    · cases h
      exact .same
    all_goals cases h
  | logCancel call =>
    rw [step] at h
    split at h
    · cases h
      exact .send _ id
    all_goals cases h

variable {s : Core}

theorem written_send_self (n : Nat) (events : List Event) : (s.send (some n) events).written n = s.written n ++ events :=
  update_self _ _ _

theorem written_send_of_ne {m n : Nat} (h : m ≠ n) (events : List Event) :
    (s.send (some n) events).written m = s.written m :=
  update_of_ne h _ _

section

variable (h : Inv s)

include h

theorem Inv.send {events : List Event} (hid : ∀ e ∈ events, e.id = s.request.id)
    (hresult : ∀ e ∈ events, ¬ e.body.IsResult) : Inv (s.send s.output events) := by
  cases hactive : s.active with
  | false =>
    rw [(h.idle hactive).1]
    exact h
  | true =>
    obtain ⟨n, stream, houtput, haccepted, hworker, hstream⟩ := h.busy hactive
    rw [houtput]
    refine ⟨h.idle, h.busy, h.single, fun m hm => ?_, h.fresh, fun m r hm e he => ?_, fun m hm e he => ?_, fun m hm => ?_⟩
    · have hmn : m ≠ n := by
        rintro rfl
        exact some_ne_none _ (haccepted.symm.trans hm)
      rw [written_send_of_ne hmn]
      exact h.unused m hm
    · by_cases hmn : m = n
      · subst hmn
        rw [written_send_self, mem_append] at he
        obtain rfl : s.request = r := some.inj (haccepted.symm.trans hm)
        exact he.elim (h.ids m _ hm e) (hid e)
      · rw [written_send_of_ne hmn] at he
        exact h.ids m r hm e he
    · by_cases hmn : m = n
      · subst hmn
        rw [written_send_self, mem_append] at he
        exact he.elim (h.running m hm e) (hresult e)
      · rw [written_send_of_ne hmn] at he
        exact h.running m hm e he
    · have hmn : m ≠ n := by
        rintro rfl
        exact hworker hm
      rw [written_send_of_ne hmn]
      exact h.closed m hm

theorem Inv.withPending {stream : LogStream} (hlog : s.log = some stream) (pending : Bytes) :
    Inv { s with log := some { stream with pending := pending } } := by
  refine ⟨fun hidle => ?_, fun hbusy => ?_, h.single, h.unused, h.fresh, h.ids, h.running, h.closed⟩
  · rw [(h.idle hidle).2] at hlog
    cases hlog
  · obtain ⟨n, stream', houtput, haccepted, hworker, hlog', hstream⟩ := h.busy hbusy
    obtain rfl : stream' = stream := some.inj (hlog'.symm.trans hlog)
    exact ⟨n, _, houtput, haccepted, hworker, rfl, hstream⟩

theorem Inv.stream {stream : LogStream} (hlog : s.log = some stream) :
    s.active = true ∧ s.output = some stream.output ∧ stream.id = s.request.id := by
  cases hactive : s.active with
  | false =>
    rw [(h.idle hactive).2] at hlog
    cases hlog
  | true =>
    obtain ⟨n, stream', houtput, -, -, hlog', rfl, hid⟩ := h.busy hactive
    obtain rfl : stream' = stream := some.inj (hlog'.symm.trans hlog)
    exact ⟨rfl, houtput, hid⟩

theorem Inv.sendLog {stream : LogStream} (hlog : s.log = some stream) {events : List Event}
    (hevents : ∀ e ∈ events, ∃ text, e = ⟨stream.id, .note (.log text)⟩) : Inv (s.send (some stream.output) events) := by
  obtain ⟨-, houtput, hid⟩ := h.stream hlog
  rw [← houtput]
  refine h.send (fun e he => ?_) fun e he => ?_
  · obtain ⟨text, rfl⟩ := hevents e he
    exact hid
  · obtain ⟨text, rfl⟩ := hevents e he
    exact id

theorem Inv.print (text : Bytes) : Inv (s.print text) := by
  rw [Core.print]
  cases hlog : s.log with
  | none => exact h
  | some stream =>
    refine Inv.withPending (h.sendLog hlog fun e he => ?_) hlog _
    obtain ⟨line, -, rfl⟩ := mem_map.mp he
    exact ⟨line, rfl⟩

theorem Inv.accept (hidle : ∀ n, ¬ s.Running n) (request : Request) : Inv { s with
      output := some s.starts, request := request, log := some ⟨s.starts, request.id, []⟩, active := true
      starts := s.starts + 1
      accepted := update s.accepted s.starts (some request)
      worker := update s.worker s.starts .started } := by
  obtain ⟨-, hempty⟩ := h.unused s.starts (h.fresh s.starts (Nat.le_refl _))
  refine ⟨nofun, fun _ => ?_, fun m hm => ?_, fun m hm => ?_, fun m hm => ?_, fun m r hm => ?_, fun m hm => ?_,
    fun m hm => ?_⟩
  · refine ⟨s.starts, _, rfl, update_self _ _ _, ?_, rfl, rfl, rfl⟩
    dsimp only
    rw [update_self]
    nofun
  · by_cases hmn : m = s.starts
    · exact ⟨rfl, congrArg some hmn.symm⟩
    · dsimp only [Core.Running] at hm
      rw [update_of_ne hmn, update_of_ne hmn] at hm
      exact absurd hm (hidle m)
  · have hmn : m ≠ s.starts := by
      rintro rfl
      exact some_ne_none request ((update_self (f := s.accepted) _ _).symm.trans hm)
    dsimp only at hm ⊢
    rw [update_of_ne hmn] at hm ⊢
    exact h.unused m hm
  · dsimp only at hm ⊢
    rw [update_of_ne (by omega)]
    exact h.fresh m (by omega)
  · by_cases hmn : m = s.starts
    · rw [hmn, hempty]
      exact nofun
    · dsimp only at hm
      rw [update_of_ne hmn] at hm
      exact h.ids m r hm
  · by_cases hmn : m = s.starts
    · rw [hmn, hempty]
      exact nofun
    · dsimp only at hm
      rw [update_of_ne hmn] at hm
      exact h.running m hm
  · have hmn : m ≠ s.starts := by
      rintro rfl
      cases (update_self (f := s.worker) _ _).symm.trans hm
    dsimp only at hm
    rw [update_of_ne hmn] at hm
    exact h.closed m hm

theorem Inv.start (hasOutput : Bool) (request : Request) (opens : Bool) :
    Inv (s.start hasOutput request opens).2 := by
  have hnext : Inv { s with starts := s.starts + 1 } :=
    ⟨h.idle, h.busy, h.single, h.unused, fun n hn => h.fresh n (Nat.le_of_succ_le hn), h.ids, h.running, h.closed⟩
  have hnone : s.active ≠ true → ∀ n, ¬ s.Running n := fun hactive n hn => hactive (h.single n hn).1
  rw [Core.start]
  split_ifs with hform hactive hopens
  · exact hnext
  · exact hnext
  · exact ⟨fun _ => ⟨rfl, rfl⟩, fun hbusy => absurd hbusy hactive, fun n hn => absurd hn (hnone hactive n), hnext.unused,
      hnext.fresh, h.ids, h.running, h.closed⟩
  · exact h.accept (hnone hactive) request

variable {n : Nat}

theorem Inv.running_of_worker (hn : s.worker n ≠ .absent) (hn' : s.worker n ≠ .finished) :
    s.Running n := ⟨fun hnone => hn (h.unused n hnone).1, hn'⟩

theorem Inv.worker (hn : s.Running n) {w : Worker} (hw : w ≠ .finished) :
    Inv { s with worker := update s.worker n w } := by
  have hsame : ∀ m, update s.worker n w m = .finished ↔ s.worker m = .finished := by
    intro m
    by_cases hmn : m = n
    · rw [hmn, update_self]
      exact iff_of_false hw hn.2
    · rw [update_of_ne hmn]
  refine ⟨h.idle, fun hbusy => ?_, fun m hm => ?_, fun m hm => ?_, h.fresh, h.ids, fun m hm => ?_, fun m hm => ?_⟩
  · obtain ⟨k, stream, houtput, haccepted, hworker, hstream⟩ := h.busy hbusy
    exact ⟨k, stream, houtput, haccepted, fun hk => hworker ((hsame k).mp hk), hstream⟩
  · exact h.single m ⟨hm.1, fun hk => hm.2 ((hsame m).mpr hk)⟩
  · have hmn : m ≠ n := by
      rintro rfl
      exact hn.1 hm
    dsimp only
    rw [update_of_ne hmn]
    exact h.unused m hm
  · exact h.running m fun hk => hm ((hsame m).mpr hk)
  · exact h.closed m ((hsame m).mp hm)

theorem Inv.closeSession (hactive : s.active = true) (houtput : s.output = some n) (result : Int) :
    ∃ tail, (∀ e ∈ tail, e.id = s.request.id ∧ ¬ e.body.IsResult) ∧ s.closeSession result = { s with
        output := none, log := none, request := {}, active := false
        written := update s.written n (s.written n ++ (tail ++ [⟨s.request.id, .result result⟩])) } := by
  obtain ⟨k, stream, houtput', -, -, hlog, hk, hid⟩ := h.busy hactive
  obtain rfl : n = k := some.inj (houtput.symm.trans houtput')
  refine ⟨if stream.pending = [] then [] else [⟨stream.id, .note (.log stream.pending)⟩], fun e he => ?_, ?_⟩
  · split_ifs at he
    · cases he
    · rw [mem_singleton.mp he]
      exact ⟨hid, id⟩
  · simp only [Core.closeSession, Core.closeLog, hlog, Core.send, houtput, hk, update_self, update_idem, append_assoc]

theorem Inv.close {request : Request} (hn : s.worker n = .executing request) (result : Int) :
    Inv { s.closeSession result with worker := update s.worker n .finished } := by
  have hrunning : s.Running n := h.running_of_worker (by rw [hn]; nofun) (by rw [hn]; nofun)
  obtain ⟨hactive, houtput⟩ := h.single n hrunning
  obtain ⟨k, -, houtput', haccepted, -⟩ := h.busy hactive
  obtain rfl : n = k := some.inj (houtput.symm.trans houtput')
  obtain ⟨tail, htail, hclose⟩ := h.closeSession hactive houtput result
  rw [hclose]
  refine ⟨fun _ => ⟨rfl, rfl⟩, nofun, fun m hm => ?_, fun m hm => ?_, h.fresh, fun m r hm e he => ?_, fun m hm => ?_,
    fun m hm => ?_⟩
  · by_cases hmn : m = n
    · exact absurd (hmn ▸ update_self _ _ _) hm.2
    · dsimp only [Core.Running] at hm
      rw [update_of_ne hmn] at hm
      exact absurd (some.inj (houtput.symm.trans (h.single m hm).2)).symm hmn
  · have hmn : m ≠ n := by
      rintro rfl
      exact hrunning.1 hm
    dsimp only
    rw [update_of_ne hmn, update_of_ne hmn]
    exact h.unused m hm
  · dsimp only at hm he
    by_cases hmn : m = n
    · subst hmn
      obtain rfl : s.request = r := some.inj (haccepted.symm.trans hm)
      rw [update_self, mem_append, mem_append, mem_singleton] at he
      rcases he with he | he | rfl
      · exact h.ids m _ hm e he
      · exact (htail e he).1
      · rfl
    · rw [update_of_ne hmn] at he
      exact h.ids m r hm e he
  · by_cases hmn : m = n
    · exact absurd (hmn ▸ update_self _ _ _) hm
    · dsimp only at hm ⊢
      rw [update_of_ne hmn] at hm ⊢
      exact h.running m hm
  · dsimp only at hm ⊢
    by_cases hmn : m = n
    · subst hmn
      rw [update_self, ← append_assoc]
      refine ⟨_, _, rfl, trivial, fun e he => ?_⟩
      rw [mem_append] at he
      exact he.elim (h.running m hrunning.2 e) fun he => (htail e he).2
    · rw [update_of_ne hmn] at hm ⊢
      exact h.closed m hm

end

theorem Inv.coreStep {s' : Core} (h : Inv s) (hstep : CoreStep s s') : Inv s' := by
  cases hstep with
  | same => exact h
  | start hasOutput request opens => exact h.start hasOutput request opens
  | check n hn =>
    have hrunning : s.Running n := h.running_of_worker (by rw [hn]; nofun) (by rw [hn]; nofun)
    have hchecked : (if s.active then Worker.checked else .finished) = .checked := if_pos (h.single n hrunning).1
    rw [hchecked]
    exact h.worker hrunning nofun
  | load n hn => exact h.worker (h.running_of_worker (by rw [hn]; nofun) (by rw [hn]; nofun)) nofun
  | close n request result hn => exact h.close hn result
  | send b hb =>
    refine h.send ?_ ?_
    · rintro e he
      rw [mem_singleton.mp he]
    · rintro e he
      rw [mem_singleton.mp he]
      exact hb
  | print text => exact h.print text

structure Sessions (s : Core) : Prop where
  single : ∀ m n, s.Running m → s.Running n → m = n
  ids : ∀ n r, s.accepted n = some r → ∀ e ∈ s.written n, e.id = r.id
  running : ∀ n, s.Running n → ∀ e ∈ s.written n, ¬ e.body.IsResult
  closed : ∀ n, s.accepted n ≠ none → ¬ s.Running n → Complete (s.written n)
  refused : ∀ n, s.accepted n = none → s.written n = []

/-- A `Start` that returns false writes nothing and leaves the running session alone. -/
def RefusesCleanly (s : Core) : Prop :=
  ∀ hasOutput request opens, (s.start hasOutput request opens).1 = false →
    (s.start hasOutput request opens).2.written = s.written ∧
      (s.active = true → (s.start hasOutput request opens).2 = { s with starts := s.starts + 1 })

/-- No `Cancel` has hit another session than the one in which it was issued. -/
structure OwnCancels (s : State) : Prop where
  flagged : ∀ hit ∈ s.flagged, hit.1 = hit.2
  logged : ∀ hit ∈ s.logged, hit.1 = hit.2

/-- No session is accepted while a `Cancel` that has found an active session is under way. -/
def Calm (s : State) : Label → Prop
  | .start hasOutput request opens => (s.toCore.start hasOutput request opens).1 = true → ∀ call, s.cancel call = .idle
  | .check _ | .load _ | .close _ _ | .emit _ | .print _ | .checkProgress _ | .writeProgress _ _ _ | .checkCancel _
  | .storeCancel _ | .logCancel _ => True

theorem Inv.sessions (h : Inv s) : Sessions s where
  single := fun m n hm hn => some.inj ((h.single m hm).2.symm.trans (h.single n hn).2)
  ids := h.ids
  running := fun n hn => h.running n hn.2
  closed := fun n hn hclosed => h.closed n (not_not.mp fun hworker => hclosed ⟨hn, hworker⟩)
  refused := fun n hn => (h.unused n hn).2

theorem refusesCleanly (s : Core) : RefusesCleanly s := by
  intro hasOutput request opens h
  rw [Core.start] at h ⊢
  split_ifs at h ⊢ with hform hactive hopens
  · exact ⟨rfl, fun _ => rfl⟩
  · exact ⟨rfl, fun _ => rfl⟩
  · exact ⟨rfl, fun hbusy => absurd hbusy hactive⟩

/-- The session in which a `Cancel` under way was issued. -/
def Cancelling.issued : Cancelling → Option (Option Nat)
  | idle => none
  | checked n | stored n => some n

/-- While a `Cancel` is under way, no session is active but the one in which it was issued. -/
structure CancelInv (s : State) : Prop where
  inv : Inv s.toCore
  issued : ∀ call n, (s.cancel call).issued = some n → s.active = true → s.output = n
  own : OwnCancels s

@[simp]
theorem send_active (output : Option Nat) (events : List Event) : (s.send output events).active = s.active := by
  cases output <;> rfl

@[simp]
theorem send_output (output : Option Nat) (events : List Event) : (s.send output events).output = s.output := by
  cases output <;> rfl

theorem print_active (text : Bytes) : (s.print text).active = s.active := by
  rw [Core.print]
  cases s.log with
  | none => rfl
  | some stream => exact send_active _ _

theorem print_output (text : Bytes) : (s.print text).output = s.output := by
  rw [Core.print]
  cases s.log with
  | none => rfl
  | some stream => exact send_output _ _

section

variable {s s' : State}

theorem CancelInv.frame (h : CancelInv s) (hinv : Inv s'.toCore) (hcancel : s'.cancel = s.cancel)
    (hflagged : s'.flagged = s.flagged) (hlogged : s'.logged = s.logged) (hactive : s'.active = s.active)
    (houtput : s'.output = s.output) : CancelInv s' := by
  refine ⟨hinv, ?_, ?_, ?_⟩
  · rw [hcancel, hactive, houtput]
    exact h.issued
  · rw [hflagged]
    exact h.own.flagged
  · rw [hlogged]
    exact h.own.logged

theorem CancelInv.start (h : CancelInv s) {hasOutput opens : Bool} {request : Request}
    (hcalm : Calm s (.start hasOutput request opens)) (hstep : step s (.start hasOutput request opens) = some s') :
    CancelInv s' := by
  have hinv := h.inv.coreStep (step_core hstep)
  have hs' := some.inj hstep
  have hcore : s'.toCore = (s.toCore.start hasOutput request opens).2 := by rw [← hs']
  have hcancel : s'.cancel = s.cancel := by rw [← hs']
  have hown : OwnCancels s' := by
    rw [← hs']
    exact ⟨h.own.flagged, h.own.logged⟩
  refine ⟨hinv, fun call n hn hactive => ?_, hown⟩
  rw [hcancel] at hn
  cases haccepted : (s.toCore.start hasOutput request opens).1 with
  | true =>
    rw [hcalm haccepted call] at hn
    cases hn
  | false =>
    -- a refused start leaves the session alone, and does not make one active
    cases hbusy : s.active with
    | true =>
      rw [(refusesCleanly s.toCore hasOutput request opens haccepted).2 hbusy] at hcore
      rw [hcore]
      exact h.issued call n hn hbusy
    | false =>
      rw [hcore, Core.start] at hactive
      rw [Core.start] at haccepted
      split_ifs at hactive haccepted
      all_goals exact absurd (hactive.symm.trans hbusy) nofun

theorem CancelInv.step {l : Label} (h : CancelInv s) (hcalm : Calm s l) (hstep : step s l = some s') : CancelInv s' := by
  have hinv := h.inv.coreStep (step_core hstep)
  cases l with
  | start hasOutput request opens => exact h.start hcalm hstep
  | check n | load n =>
    obtain ⟨-, hstep⟩ := ite_none_right_eq_some.mp hstep
    cases hstep
    exact h.frame hinv rfl rfl rfl rfl rfl
  | close n result =>
    rw [Rpc.step] at hstep
    split at hstep
    · cases hstep
      exact ⟨hinv, fun _ _ _ => nofun, ⟨h.own.flagged, h.own.logged⟩⟩
    all_goals cases hstep
  | emit n =>
    cases hstep
    exact h.frame hinv rfl rfl rfl (send_active _ _) (send_output _ _)
  | print text =>
    cases hstep
    exact h.frame hinv rfl rfl rfl (print_active _) (print_output _)
  | checkProgress call =>
    cases hstep
    exact h.frame hinv rfl rfl rfl rfl rfl
  | writeProgress call phase percent =>
    obtain ⟨-, hstep⟩ := ite_none_right_eq_some.mp hstep
    cases hstep
    exact h.frame hinv rfl rfl rfl (send_active _ _) (send_output _ _)
  | checkCancel call =>
    obtain ⟨-, hstep⟩ := ite_none_right_eq_some.mp hstep
    cases hstep
    refine ⟨hinv, fun other n hn hactive => ?_, ⟨h.own.flagged, h.own.logged⟩⟩
    dsimp only at hn hactive ⊢
    by_cases hcall : other = call
    · rw [hcall, update_self, if_pos hactive] at hn
      exact some.inj hn
    · rw [update_of_ne hcall] at hn
      exact h.issued other n hn hactive
  | storeCancel call =>
    rw [Rpc.step] at hstep
    split at hstep
    · rename_i issued hchecked
      cases hstep
      refine ⟨hinv, fun other n hn hactive => ?_, ⟨fun hit hhit => ?_, h.own.logged⟩⟩
      · by_cases hcall : other = call
        · refine h.issued call n ?_ hactive
          dsimp only at hn
          rw [hcall, update_self] at hn
          rw [hchecked]
          exact hn
        · dsimp only at hn
          rw [update_of_ne hcall] at hn
          exact h.issued other n hn hactive
      · dsimp only at hhit
        split_ifs at hhit with hactive
        · rcases mem_cons.mp hhit with rfl | hhit
          · exact h.issued call issued (by rw [hchecked]; rfl) hactive
          · exact h.own.flagged hit hhit
        · exact h.own.flagged hit hhit
    all_goals cases hstep
  | logCancel call =>
    rw [Rpc.step] at hstep
    split at hstep
    · rename_i issued hstored
      cases hstep
      refine ⟨hinv, fun other n hn hactive => ?_, ⟨h.own.flagged, fun hit hhit => ?_⟩⟩
      · dsimp only at hn hactive ⊢
        rw [send_active] at hactive
        rw [send_output]
        by_cases hcall : other = call
        · rw [hcall, update_self] at hn
          cases hn
        · rw [update_of_ne hcall] at hn
          exact h.issued other n hn hactive
      · dsimp only at hhit
        split_ifs at hhit with hsome
        · rcases mem_cons.mp hhit with rfl | hhit
          · refine h.issued call issued (by rw [hstored]; rfl) ?_
            by_contra hactive
            rw [(h.inv.idle (Bool.eq_false_iff.mpr hactive)).1] at hsome
            cases hsome
          · exact h.own.logged hit hhit
        · exact h.own.logged hit hhit
    all_goals cases hstep

end

theorem inv_initial : Inv ({} : Core) :=
  ⟨fun _ => ⟨rfl, rfl⟩, nofun, fun _ hn => absurd rfl hn.1, fun _ _ => ⟨rfl, rfl⟩, fun _ _ => rfl, fun _ _ => nofun,
    fun _ _ => nofun, fun _ => nofun⟩

theorem reaches_inv {P : State → Label → Prop} {s : State} (h : Reaches step P {} s) : Inv s.toCore :=
  h.invariant (I := fun s => Inv s.toCore) inv_initial fun _ _ _ hs _ hstep => hs.coreStep (step_core hstep)

theorem reaches_ownCancels {s : State} (h : Reaches step Calm {} s) : OwnCancels s :=
  CancelInv.own (h.invariant ⟨inv_initial, fun _ _ => nofun, ⟨nofun, nofun⟩⟩ fun _ _ _ hs hcalm hstep => hs.step hcalm hstep)

/-- The sessions are as asked for in every run. The calls of `Cancel` only hit their own sessions in the runs that accept
no session while one of them is under way. -/
theorem dispatcher_sessions {P : State → Label → Prop} {s : State} (h : Reaches step P {} s) :
    Sessions s.toCore ∧ RefusesCleanly s.toCore ∧ ((∀ s l, P s l → Calm s l) → OwnCancels s) :=
  ⟨(reaches_inv h).sessions, refusesCleanly s.toCore, fun hcalm => reaches_ownCancels (h.mono hcalm)⟩

/-- A session that is cancelled while it is executed. -/
theorem dispatcher_sessions_cancelled :
    ∃ s, Reaches step Calm {} s ∧ s.flagged = [(some 0, some 0)] ∧ (s.written 0).length = 1 ∧ Sessions s.toCore ∧
      OwnCancels s := by
  have hrun : Reaches step Calm {} _ := Reaches.refl
    |>.step (a := .start true ⟨ascii "a", []⟩ true) (fun _ _ => rfl) rfl
    |>.step (a := .check 0) trivial rfl
    |>.step (a := .load 0) trivial rfl
    |>.step (a := .checkCancel 0) trivial rfl
    |>.step (a := .storeCancel 0) trivial rfl
    |>.step (a := .close 0 1) trivial rfl
    |>.step (a := .logCancel 0) trivial rfl
  obtain ⟨hsessions, -, hown⟩ := dispatcher_sessions hrun
  exact ⟨_, hrun, rfl, rfl, hsessions, hown fun _ _ h => h⟩

/-- A `Cancel` issued in the first session, which closes before the flag is set, hits the second one. -/
theorem cancel_hits_later_session : ¬ ∀ s, Reaches step (fun _ _ => True) {} s → OwnCancels s := by
  intro h
  have hrun : [Label.start true ⟨ascii "a", []⟩ true, .check 0, .load 0, .checkCancel 0, .close 0 0,
      .start true ⟨ascii "b", []⟩ true, .storeCancel 0, .logCancel 0].foldlM step {} = some _ := rfl
  have hhit := (h _ (reaches_of_foldlM hrun)).flagged (some 1, some 0) (mem_singleton.mpr rfl)
  exact absurd hhit (by decide)

end AeraRecovery.Rpc
