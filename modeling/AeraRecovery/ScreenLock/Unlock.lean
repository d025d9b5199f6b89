import AeraRecovery.ScreenLock.Gate

namespace AeraRecovery.ScreenLock

open Lib LockSecurity Steps Function List Option Nat
open World (step)

def Quiet (w : World) : Prop := ∀ k c, w.calls k ≠ .changing c

/-- Changes do not overlap each other, a poll or the end of a session, and their `fsync` of the directory does
not fail. -/
def Ordered (w : World) : Label → Prop
  | .change _ l => Quiet w ∧ l.writes.syncDir = false
  | .poll .. | .consume _ => Quiet w
  | _ => True

/-- The token of the running session is the one of the last `Begin` and was not consumed. -/
structure Once (w : World) : Prop where
  token_eq : w.gate.active = true → w.monitor.token = some w.gate.generation
  spent_lt : ∀ x ∈ w.monitor.spent, x < w.gate.generation

structure Polled (w w' : World) : Prop where
  store_eq : w'.store = w.store
  calls_eq : w'.calls = w.calls
  generation_eq : w'.gate.generation = w.gate.generation
  revision_eq : w'.gate.revision = w.gate.revision
  active_eq : w'.gate.active = w.gate.active
  required_eq : w'.gate.required = w.gate.required
  token_eq : w'.monitor.token = w.monitor.token
  spent_eq : w'.monitor.spent = w.monitor.spent
  guarded_eq : w'.monitor.guarded = w.monitor.guarded
  enabled_imp : w'.gate.enabled = true → w.gate.enabled = true
  proof_imp : w.monitor.proof = true → w'.monitor.proof = true

theorem Polled.refl (w : World) : Polled w w := ⟨rfl, rfl, rfl, rfl, rfl, rfl, rfl, rfl, rfl, id, id⟩

theorem Polled.trans {w v u : World} (h : Polled w v) (h' : Polled v u) : Polled w u :=
  ⟨h'.store_eq.trans h.store_eq, h'.calls_eq.trans h.calls_eq, h'.generation_eq.trans h.generation_eq,
    h'.revision_eq.trans h.revision_eq, h'.active_eq.trans h.active_eq, h'.required_eq.trans h.required_eq,
    h'.token_eq.trans h.token_eq, h'.spent_eq.trans h.spent_eq, h'.guarded_eq.trans h.guarded_eq,
    fun he => h.enabled_imp (h'.enabled_imp he), fun hp => h'.proof_imp (h.proof_imp hp)⟩

structure Sensing (w : World) : Prop where
  started_mem : ∀ h, w.gate.child = some h → h ∈ w.monitor.started
  ready_mem : w.gate.enabled = true → w.gate.ready = true → ∃ h, w.gate.child = some h ∧ h ∈ w.monitor.ready
  granted_imp : w.gate.granted = true → w.monitor.proof = true
  authenticated_imp : w.gate.authenticated = true → w.gate.enabled = false

section

variable {w : World} {p : Poll}

theorem polled_request (w : World) (p : Poll) : Polled w (w.request p).1 := by
  unfold World.request
  split_ifs
  · exact .refl w
  · exact .refl w
  · exact { Polled.refl w with enabled_imp := nofun }
  · exact { Polled.refl w with }

theorem Sensing.request (h : Sensing w) (p : Poll) : Sensing (w.request p).1 := by
  unfold World.request
  split_ifs
  · exact h
  · exact h
  · exact ⟨h.started_mem, nofun, h.granted_imp, fun _ => rfl⟩
  · exact { h with }

theorem polled_spawn (w : World) (p : Poll) : Polled w (w.spawn p) := by
  unfold World.spawn
  split_ifs
  · cases p.spawn with
    | blocked => exact .refl w
    | failed => exact { Polled.refl w with enabled_imp := nofun }
    | started => exact { Polled.refl w with }
  · exact .refl w

theorem Sensing.spawn (h : Sensing w) (p : Poll) : Sensing (w.spawn p) := by
  unfold World.spawn
  split_ifs with hspawn
  · cases p.spawn with
    | blocked => exact h
    | failed => exact ⟨h.started_mem, nofun, h.granted_imp, fun _ => rfl⟩
    | started =>
      refine ⟨?_, ?_, h.granted_imp, h.authenticated_imp⟩
      · intro k hk
        rw [← some.inj hk]
        exact mem_cons_self
      · intro he hr
        obtain ⟨k, hk, -⟩ := h.ready_mem he hr
        rw [hspawn.1] at hk
        cases hk
  · exact h

theorem enabled_spawn (h : w.gate.enabled = true) (hchild : (w.spawn p).gate.child ≠ none) :
    (w.spawn p).gate.enabled = true := by
  unfold World.spawn at hchild ⊢
  split_ifs at hchild ⊢ with hspawn
  · cases hp : p.spawn with
    | blocked | started => exact h
    | failed =>
      rw [hp] at hchild
      exact absurd hspawn.1 hchild
  · exact h

theorem polled_stop (w : World) : Polled w { w with gate := w.gate.stopFingerprint } :=
  { Polled.refl w with enabled_imp := nofun }

theorem Sensing.stop (h : Sensing w) : Sensing { w with gate := w.gate.stopFingerprint } :=
  ⟨nofun, nofun, h.granted_imp, nofun⟩

theorem polled_settle (w : World) (p : Poll) : Polled w (w.settle p) := by
  unfold World.settle Gate.reap Gate.expire
  split_ifs <;> refine { Polled.refl w with enabled_imp := ?_ } <;> first | exact id | exact nofun

theorem Sensing.expire (h : Sensing w) (now : Nat) : Sensing { w with gate := w.gate.expire now } := by
  unfold Gate.expire
  split_ifs
  · exact ⟨nofun, nofun, h.granted_imp, fun _ => rfl⟩
  · exact h

theorem Sensing.reap (h : Sensing w) (exited : Bool) : Sensing { w with gate := w.gate.reap exited } := by
  unfold Gate.reap
  split_ifs with hchild hauthenticated
  · refine ⟨nofun, ?_, h.granted_imp, h.authenticated_imp⟩
    intro he
    exact absurd he (by rw [Gate.closeChild, h.authenticated_imp hauthenticated]; decide)
  · exact ⟨nofun, nofun, h.granted_imp, fun _ => rfl⟩
  · exact h

theorem Sensing.settle (h : Sensing w) (p : Poll) : Sensing (w.settle p) := (h.expire p.lateNow).reap p.exited

variable {helper : Nat}

theorem events_more {now : Nat} {e : Event} {g : Gate} (h : w.gate.event now e = (g, true)) (rest : List Event) :
    World.events helper now w (e :: rest) =
      World.events helper now { w with gate := g, monitor := w.monitor.reported helper w.fingerprint e } rest := by
  rw [World.events, h]
  rfl

theorem events_last {now : Nat} {e : Event} {g : Gate} (h : w.gate.event now e = (g, false))
    (rest : List Event) : World.events helper now w (e :: rest) =
      { w with gate := g, monitor := w.monitor.reported helper w.fingerprint e } := by
  rw [World.events, h]
  rfl

theorem polled_event (w : World) (helper now : Nat) (e : Event) :
    Polled w { w with gate := (w.gate.event now e).1, monitor := w.monitor.reported helper w.fingerprint e } := by
  cases e with
  | sensor | rejected | other => exact .refl w
  | ready =>
    simp only [Gate.event, Monitor.reported]
    split_ifs <;> exact { Polled.refl w with }
  | authenticated =>
    have hproof (hp : w.monitor.proof = true) :
        (w.monitor.reported helper w.fingerprint .authenticated).proof = true := Bool.or_eq_true_iff.mpr (.inl hp)
    simp only [Gate.event]
    split_ifs
    · exact { Polled.refl w with enabled_imp := nofun, proof_imp := hproof }
    · exact { Polled.refl w with proof_imp := hproof }
  | unavailable =>
    simp only [Gate.event]
    split_ifs
    · exact { Polled.refl w with }
    · exact { Polled.refl w with enabled_imp := nofun }
  | error => exact { Polled.refl w with enabled_imp := nofun }

theorem polled_events (helper now : Nat) (w : World) (lines : List Event) :
    Polled w (World.events helper now w lines) := by
  induction lines generalizing w with
  | nil => exact .refl w
  | cons e rest ih =>
    have hevent := polled_event w helper now e
    cases h : w.gate.event now e with
    | mk g more =>
      rw [h] at hevent
      cases more with
      | false =>
        rw [events_last h]
        exact hevent
      | true =>
        rw [events_more h]
        exact hevent.trans (ih _)

theorem Sensing.events (h : Sensing w) {now : Nat} (hfinger : w.fingerprint = true)
    (hchild : w.gate.child = some helper) (henabled : w.gate.enabled = true) (lines : List Event) :
    Sensing (World.events helper now w lines) := by
  induction lines generalizing w with
  | nil => exact h
  | cons e rest ih =>
    have hstarted := h.started_mem helper hchild
    cases e with
    | sensor | rejected | other => exact ih h hfinger hchild henabled
    | ready =>
      -- the helper was started since the last change, so the monitor notes that it is ready
      have hmonitor : w.monitor.reported helper w.fingerprint .ready =
          { w.monitor with ready := helper :: w.monitor.ready } := if_pos hstarted
      have hevent : w.gate.event now .ready = ({ w.gate with ready := true }, true) := rfl
      rw [events_more hevent, hmonitor]
      exact ih { h with ready_mem := fun _ _ => ⟨helper, hchild, mem_cons_self⟩ } hfinger hchild henabled
    | authenticated =>
      by_cases hready : w.gate.ready = true
      · obtain ⟨k, hk, hmem⟩ := h.ready_mem henabled hready
        obtain rfl : k = helper := some.inj (hk.symm.trans hchild)
        have hproof : (w.monitor.reported k w.fingerprint .authenticated).proof = true := by
          simp only [Monitor.reported, hfinger, hmem, decide_true, Bool.and_self, Bool.or_true]
        have hevent : w.gate.event now .authenticated =
            ({ w.gate with granted := true, authenticated := true, enabled := false }.closeChild, false) :=
          if_pos hready
        rw [events_last hevent]
        exact ⟨nofun, nofun, fun _ => hproof, fun _ => rfl⟩
      · have hevent : w.gate.event now .authenticated = (w.gate, true) := if_neg hready
        rw [events_more hevent]
        exact ih { h with granted_imp := fun hg => Bool.or_eq_true_iff.mpr (.inl (h.granted_imp hg)) } hfinger
          hchild henabled
    | unavailable =>
      by_cases hretry : (!w.gate.ready && now - w.gate.started < 15000) = true
      · have hready : w.gate.ready = false := by
          rw [Bool.and_eq_true, Bool.not_eq_true'] at hretry
          exact hretry.1
        have hevent : w.gate.event now .unavailable = ({ w.gate.closeChild with retryAt := now + 500 }, false) :=
          if_pos hretry
        rw [events_last hevent]
        refine ⟨nofun, ?_, h.granted_imp, h.authenticated_imp⟩
        intro _ hr
        have hr : w.gate.ready = true := hr
        rw [hready] at hr
        cases hr
      · have hevent : w.gate.event now .unavailable =
            ({ w.gate with ready := false, enabled := false }.closeChild, false) := if_neg hretry
        rw [events_last hevent]
        exact ⟨nofun, nofun, h.granted_imp, fun _ => rfl⟩
    | error => exact ⟨nofun, nofun, h.granted_imp, fun _ => rfl⟩

theorem polled_poll (w : World) (token : Nat) (p : Poll) : Polled w (w.poll token p) := by
  unfold World.poll
  split_ifs
  · exact .refl w
  have hpolled := polled_request w p
  cases hrequest : w.request p with
  | mk v more =>
    rw [hrequest] at hpolled
    cases more with
    | false => exact hpolled
    | true =>
      have hspawn := hpolled.trans (polled_spawn v p)
      dsimp only
      cases (v.spawn p).gate.child with
      | none => exact hspawn.trans (polled_settle _ p)
      | some helper =>
        cases p.lines with
        | none => exact hspawn.trans (polled_stop _)
        | some lines => exact (hspawn.trans (polled_events helper p.eventNow _ lines)).trans (polled_settle _ p)

theorem enabled_request (h : w.gate.enabled = true) (hmore : (w.request p).2 = true) :
    (w.request p).1.gate.enabled = true := by
  unfold World.request at hmore ⊢
  split_ifs at hmore ⊢
  · exact h
  · exact h

theorem Sensing.poll (h : Sensing w) (hfinger : w.gate.enabled = true → w.fingerprint = true) (token : Nat) (p : Poll) :
    Sensing (w.poll token p) := by
  unfold World.poll
  split_ifs with hskip
  · exact h
  have henabled : w.gate.enabled = true := by
    simp only [Bool.or_eq_true, Bool.not_eq_true', not_or, Bool.not_eq_false] at hskip
    exact hskip.2
  have hsensing := h.request p
  have hpolled := polled_request w p
  have hmore := enabled_request (p := p) henabled
  cases hrequest : w.request p with
  | mk v more =>
    rw [hrequest] at hsensing hpolled hmore
    cases more with
    | false => exact hsensing
    | true =>
      have hspawn := hsensing.spawn p
      have hfinger' : (v.spawn p).fingerprint = true := by
        rw [World.fingerprint, (hpolled.trans (polled_spawn v p)).store_eq]
        exact hfinger henabled
      dsimp only
      cases hchild : (v.spawn p).gate.child with
      | none => exact hspawn.settle p
      | some helper =>
        cases p.lines with
        | none => exact hspawn.stop
        | some lines =>
          have henabled' := enabled_spawn (hmore rfl) (by rw [hchild]; exact nofun)
          exact (hspawn.events hfinger' hchild henabled' lines).settle p

end

structure Inv (w : World) : Prop where
  sensing : Sensing w
  single : ∀ j k c d, w.calls j = .changing c → w.calls k = .changing d → j = k
  checking_le : ∀ k token revision secret, w.calls k = .checking token revision secret →
    token ≤ w.gate.generation ∧ revision ≤ w.gate.revision
  checked_le : ∀ k token revision ok, w.calls k = .checked token revision ok →
    token ≤ w.gate.generation ∧ revision ≤ w.gate.revision
  checked_imp : ∀ k token revision, w.calls k = .checked token revision true → w.gate.active = true →
    token = w.gate.generation → revision = w.gate.revision → w.monitor.proof = true
  guarded_imp : w.gate.active = true → w.monitor.guarded = true → w.gate.required = true
  entry_imp : w.gate.active = true → w.store.folder.entry ≠ .absent →
    w.gate.required = true ∨ ∃ k, w.calls k = .changing .set
  removing : ∀ k, w.calls k = .changing .remove → w.store.folder.entry = .absent
  enabled_imp : w.gate.enabled = true → w.fingerprint = true ∨ ∃ k c, w.calls k = .changing c

section

variable {scrypt : Bytes → Key → Key} {w v : World}

theorem Inv.polled (h : Inv w) (hp : Polled w v) (hs : Sensing v) : Inv v := by
  refine ⟨hs, ?_, ?_, ?_, ?_, ?_, ?_, ?_, ?_⟩
  · rw [hp.calls_eq]
    exact h.single
  · rw [hp.calls_eq, hp.generation_eq, hp.revision_eq]
    exact h.checking_le
  · rw [hp.calls_eq, hp.generation_eq, hp.revision_eq]
    exact h.checked_le
  · rw [hp.calls_eq, hp.generation_eq, hp.revision_eq, hp.active_eq]
    exact fun k token revision hk ha ht hr => hp.proof_imp (h.checked_imp k token revision hk ha ht hr)
  · rw [hp.active_eq, hp.guarded_eq, hp.required_eq]
    exact h.guarded_imp
  · rw [hp.active_eq, hp.store_eq, hp.required_eq, hp.calls_eq]
    exact h.entry_imp
  · rw [hp.calls_eq, hp.store_eq]
    exact h.removing
  · rw [World.fingerprint, hp.store_eq, hp.calls_eq]
    exact fun he => h.enabled_imp (hp.enabled_imp he)

theorem Inv.closed (h : Inv w) (hstore : v.store = w.store) (hcalls : v.calls = w.calls)
    (hgeneration : w.gate.generation ≤ v.gate.generation) (hrevision : v.gate.revision = w.gate.revision)
    (hactive : v.gate.active = false) (hgranted : v.gate.granted = false) (henabled : v.gate.enabled = false)
    (hchild : v.gate.child = none) : Inv v := by
  have hno {P : Prop} (ha : v.gate.active = true) : P := by
    rw [hactive] at ha
    cases ha
  refine ⟨⟨?_, ?_, ?_, fun _ => henabled⟩, ?_, ?_, ?_, fun _ _ _ _ ha => hno ha, fun ha => hno ha, fun ha => hno ha,
    ?_, ?_⟩
  · rw [hchild]
    exact nofun
  · rw [henabled]
    exact nofun
  · rw [hgranted]
    exact nofun
  · rw [hcalls]
    exact h.single
  · rw [hcalls, hrevision]
    intro k token revision secret hk
    obtain ⟨ht, hr⟩ := h.checking_le k token revision secret hk
    exact ⟨ht.trans hgeneration, hr⟩
  · rw [hcalls, hrevision]
    intro k token revision ok hk
    obtain ⟨ht, hr⟩ := h.checked_le k token revision ok hk
    exact ⟨ht.trans hgeneration, hr⟩
  · rw [hcalls, hstore]
    exact h.removing
  · rw [henabled]
    exact nofun

theorem begin_spec (g : Gate) (r : Record) (lit : Bool) :
    (g.begin r lit).generation = g.generation + 1 ∧ (g.begin r lit).revision = g.revision ∧
      (g.begin r lit).active = true ∧ (g.begin r lit).granted = false ∧ (g.begin r lit).child = none ∧
      (g.begin r lit).ready = false ∧ (g.begin r lit).authenticated = false ∧
      (Gate.configured r = true → (g.begin r lit).required = true) ∧
      ((g.begin r lit).enabled = true → ∃ c, r = .valid c ∧ c.fingerprint = true) := by
  cases r with
  | none | damaged => exact ⟨rfl, rfl, rfl, rfl, rfl, rfl, rfl, fun h => by simp [Gate.begin, h]; rfl, nofun⟩
  | valid c =>
    by_cases hfinger : c.fingerprint = true
    · have hbegin : g.begin (.valid c) lit = { g.stopFingerprint with
          generation := g.generation + 1, active := true, granted := false, required := true, enabled := lit,
          started := 0, retryAt := 0 } := if_pos (by simp [Gate.configured, hfinger])
      rw [hbegin]
      exact ⟨rfl, rfl, rfl, rfl, rfl, rfl, rfl, fun _ => rfl, fun _ => ⟨c, rfl, hfinger⟩⟩
    · have hbegin : g.begin (.valid c) lit = { g.stopFingerprint with
          generation := g.generation + 1, active := true, granted := false, required := true }.stopFingerprint :=
        if_neg (by simp [hfinger])
      rw [hbegin]
      exact ⟨rfl, rfl, rfl, rfl, rfl, rfl, rfl, fun _ => rfl, nofun⟩

theorem Inv.begin (h : Inv w) (reads : ReadFaults) (lit : Bool) (hstep : w.step scrypt (.begin reads lit) = some v) :
    Inv v := by
  cases hstep
  obtain ⟨hgeneration, hrevision, hactive, hgranted, hchild, hready, hauthenticated, hrequired, henabled⟩ :=
    begin_spec w.gate (read reads w.store.folder) lit
  have hfresh {token : Nat} (ht : token ≤ w.gate.generation) :
      token < (w.gate.begin (read reads w.store.folder) lit).generation := by omega
  refine ⟨⟨?_, ?_, ?_, ?_⟩, h.single, ?_, ?_, ?_, ?_, ?_, h.removing, ?_⟩
  · simp only [hchild]
    exact nofun
  · simp only [hready]
    exact nofun
  · simp only [hgranted]
    exact nofun
  · simp only [hauthenticated]
    exact nofun
  · intro k token revision secret hk
    obtain ⟨ht, hr⟩ := h.checking_le k token revision secret hk
    exact ⟨(hfresh ht).le, hr.trans hrevision.ge⟩
  · intro k token revision ok hk
    obtain ⟨ht, hr⟩ := h.checked_le k token revision ok hk
    exact ⟨(hfresh ht).le, hr.trans hrevision.ge⟩
  · intro k token revision hk _ ht
    exact absurd ht (hfresh (h.checked_le k token revision true hk).1).ne
  · exact fun _ hg => hrequired hg
  · intro _ hentry
    refine .inl (hrequired ?_)
    cases hread : read reads w.store.folder with
    | none => exact absurd (entry_of_read hread) hentry
    | damaged | valid => rfl
  · intro he
    obtain ⟨c, hc, hfinger⟩ := henabled he
    refine .inl ?_
    simp only [World.fingerprint, stored_of_read hc, any_some, hfinger]

theorem entry_of_stored {d : Folder} {c : Credential} (h : d.stored = some c) : d.entry ≠ .absent := by
  intro hentry
  cases d with
  | missing | unusable => cases h
  | present safe e =>
    subst hentry
    cases safe <;> cases h

variable {k : Nat}

theorem change_cases {l : LockSecurity.Label} (hstep : w.step scrypt (.change k l) = some v) :
    ∃ c, World.kind l.call = some c ∧
      (((w.store.apply scrypt l).1 ≠ .ok () ∧ v = { w with store := (w.store.apply scrypt l).2 }) ∨
        ((w.store.apply scrypt l).1 = .ok () ∧
          v = { w with store := (w.store.apply scrypt l).2 }.setCall k (.changing c))) := by
  simp only [step] at hstep
  split at hstep
  · rename_i c hidle hkind
    refine ⟨c, hkind, ?_⟩
    split at hstep
    · rename_i store happly
      cases hstep
      rw [happly]
      exact .inr ⟨rfl, rfl⟩
    · rename_i e store happly
      cases hstep
      rw [happly]
      exact .inl ⟨nofun, rfl⟩
  · cases hstep

variable {store : Store}

theorem Inv.refused (h : Inv w) (hentry : store.folder.entry = w.store.folder.entry)
    (hstored : store.folder.stored = w.store.folder.stored) : Inv { w with store } := by
  refine { h with
    sensing := { h.sensing with }
    entry_imp := fun ha he => h.entry_imp ha (by rw [← hentry]; exact he)
    removing := fun k hk => hentry.trans (h.removing k hk)
    enabled_imp := fun he => ?_ }
  simp only [World.fingerprint, hstored]
  exact h.enabled_imp he

theorem calls_setCall {u : World} {j : Nat} {a x : Activity} (h : (u.setCall k a).calls j = x) (hne : a ≠ x) :
    j ≠ k ∧ u.calls j = x := Steps.of_update h hne

theorem Inv.changing (h : Inv w) (hquiet : Quiet w) {c : Change}
    (hset : c ≠ .set → store.folder.entry ≠ .absent → w.store.folder.entry ≠ .absent)
    (hremove : c = .remove → store.folder.entry = .absent) : Inv ({ w with store }.setCall k (.changing c)) := by
  have hnew {j : Nat} {d : Change} (hj : ({ w with store }.setCall k (.changing c)).calls j = .changing d) :
      j = k ∧ c = d := by
    rcases Steps.update_cases hj with ⟨rfl, hc⟩ | ⟨-, hc⟩
    · exact ⟨rfl, Activity.changing.inj hc⟩
    · exact absurd hc (hquiet j d)
  have hself : ({ w with store }.setCall k (.changing c)).calls k = .changing c := update_self k _ _
  refine ⟨{ h.sensing with }, ?_, ?_, ?_, ?_, h.guarded_imp, ?_, ?_, ?_⟩
  · exact fun i j d e hi hj => (hnew hi).1.trans (hnew hj).1.symm
  · exact fun j token revision secret hj => h.checking_le j token revision secret (calls_setCall hj nofun).2
  · exact fun j token revision ok hj => h.checked_le j token revision ok (calls_setCall hj nofun).2
  · exact fun j token revision hj => h.checked_imp j token revision (calls_setCall hj nofun).2
  · intro ha he
    by_cases hc : c = .set
    · exact .inr ⟨k, by rw [hself, hc]⟩
    · exact .inl ((h.entry_imp ha (hset hc he)).resolve_right fun ⟨j, hj⟩ => hquiet j _ hj)
  · exact fun j hj => hremove (hnew hj).2
  · exact fun _ => .inr ⟨k, c, hself⟩

theorem Inv.change (h : Inv w) (hquiet : Quiet w) {l : LockSecurity.Label} (hsync : l.writes.syncDir = false)
    (hstep : w.step scrypt (.change k l) = some v) : Inv v := by
  have heffect := effect_apply scrypt w.store l
  obtain ⟨c, hkind, hcase⟩ := change_cases hstep
  cases heffect with
  | kept hentry hstored hr =>
    rcases hcase with ⟨-, rfl⟩ | ⟨hok, rfl⟩
    · exact h.refused hentry hstored
    · obtain ⟨value, hvalue⟩ := hr hok
      rw [hvalue] at hkind
      cases hkind
  | set hcall hauth hvalue hd hr =>
    obtain ⟨-, rfl⟩ := hcase.resolve_left fun hfail => hfail.1 (hr.mpr hsync)
    rw [hcall] at hkind
    cases hkind
    exact h.changing hquiet (fun hne => absurd rfl hne) nofun
  | removed hcall hc hauth hd hstored hr =>
    obtain ⟨-, rfl⟩ := hcase.resolve_left fun hfail => hfail.1 (hr.mpr hsync)
    exact h.changing hquiet (fun _ he => absurd hd he) fun _ => hd
  | flagged hcall hc hauth hd hr =>
    obtain ⟨-, rfl⟩ := hcase.resolve_left fun hfail => hfail.1 (hr.mpr hsync)
    rw [hcall] at hkind
    cases hkind
    exact h.changing hquiet (fun _ _ => entry_of_stored hc) nofun

theorem changed_spec (g : Gate) (c : Change) :
    (g.changed c).generation = g.generation ∧ (g.changed c).revision = g.revision + 1 ∧
      (g.changed c).active = g.active ∧ (g.changed c).granted = false ∧ (g.changed c).child = none ∧
      (g.changed c).enabled = false := by
  cases c <;> exact ⟨rfl, rfl, rfl, rfl, rfl, rfl⟩

theorem Inv.finish (h : Inv w) (hstep : w.step scrypt (.finish k) = some v) : Inv v := by
  simp only [step] at hstep
  split at hstep
  · rename_i c hk
    cases hstep
    obtain ⟨hgeneration, hrevision, hactive, hgranted, hchild, henabled⟩ := changed_spec w.gate c
    refine ⟨⟨?_, ?_, ?_, fun _ => henabled⟩, ?_, ?_, ?_, ?_, ?_, ?_, ?_, ?_⟩
    · exact fun j hj => absurd (hchild.symm.trans hj) nofun
    · exact fun he => absurd (henabled.symm.trans he) nofun
    · exact fun hg => absurd (hgranted.symm.trans hg) nofun
    · exact fun i j d e hi hj => h.single i j d e (calls_setCall hi nofun).2 (calls_setCall hj nofun).2
    · intro j token revision secret hj
      obtain ⟨ht, hr⟩ := h.checking_le j token revision secret (calls_setCall hj nofun).2
      exact ⟨ht.trans hgeneration.ge, (hr.trans (le_succ _)).trans hrevision.ge⟩
    · intro j token revision ok hj
      obtain ⟨ht, hr⟩ := h.checked_le j token revision ok (calls_setCall hj nofun).2
      exact ⟨ht.trans hgeneration.ge, (hr.trans (le_succ _)).trans hrevision.ge⟩
    · intro j token revision hj _ _ hr
      have hle := (h.checked_le j token revision true (calls_setCall hj nofun).2).2
      have hr : revision = (w.gate.changed c).revision := hr
      omega
    · intro ha hg
      cases c with
      | set => exact Bool.or_eq_true_iff.mpr (.inr ha)
      | remove => cases hg
      | setFingerprint => exact h.guarded_imp ha hg
    · intro ha he
      cases c with
      | set => exact .inl (Bool.or_eq_true_iff.mpr (.inr ha))
      | remove => exact absurd (h.removing k hk) he
      | setFingerprint =>
        rcases h.entry_imp ha he with hr | ⟨j, hj⟩
        · exact .inl hr
        · rw [h.single j k _ _ hj hk, hk] at hj
          cases hj
    · exact fun j hj => h.removing j (calls_setCall hj nofun).2
    · exact fun he => absurd (henabled.symm.trans he) nofun
  · cases hstep

theorem Inv.setCall (h : Inv w) {a : Activity} (hk : ∀ c, w.calls k ≠ .changing c) (ha : ∀ c, a ≠ .changing c)
    (hchecking : ∀ token revision secret, a = .checking token revision secret →
      token ≤ w.gate.generation ∧ revision ≤ w.gate.revision)
    (hchecked : ∀ token revision ok, a = .checked token revision ok →
      token ≤ w.gate.generation ∧ revision ≤ w.gate.revision)
    (hproof : ∀ token revision, a = .checked token revision true → w.gate.active = true →
      token = w.gate.generation → revision = w.gate.revision → w.monitor.proof = true) : Inv (w.setCall k a) := by
  have hchanging {j : Nat} {c : Change} (hj : w.calls j = .changing c) : (w.setCall k a).calls j = .changing c := by
    have hne : j ≠ k := fun heq => hk c (heq ▸ hj)
    exact (update_of_ne hne _ _).trans hj
  refine ⟨{ h.sensing with }, ?_, ?_, ?_, ?_, h.guarded_imp, ?_, ?_, ?_⟩
  · exact fun i j d e hi hj => h.single i j d e (calls_setCall hi (ha d)).2 (calls_setCall hj (ha e)).2
  · intro j token revision secret hj
    rcases Steps.update_cases hj with ⟨-, heq⟩ | ⟨-, hj⟩
    · exact hchecking token revision secret heq
    · exact h.checking_le j token revision secret hj
  · intro j token revision ok hj
    rcases Steps.update_cases hj with ⟨-, heq⟩ | ⟨-, hj⟩
    · exact hchecked token revision ok heq
    · exact h.checked_le j token revision ok hj
  · intro j token revision hj
    rcases Steps.update_cases hj with ⟨-, heq⟩ | ⟨-, hj⟩
    · exact hproof token revision heq
    · exact h.checked_imp j token revision hj
  · intro hactive he
    rcases h.entry_imp hactive he with hr | ⟨j, hj⟩
    · exact .inl hr
    · exact .inr ⟨j, hchanging hj⟩
  · exact fun j hj => h.removing j (calls_setCall hj (ha _)).2
  · intro he
    rcases h.enabled_imp he with hf | ⟨j, c, hj⟩
    · exact .inl hf
    · exact .inr ⟨j, c, hchanging hj⟩

variable {token : Nat}

section

variable (h : Inv w)

include h

theorem Inv.verify {secret : Bytes} (hstep : w.step scrypt (.verify k token secret) = some v) : Inv v := by
  simp only [step] at hstep
  split at hstep
  · rename_i hk
    split_ifs at hstep with hskip
    · cases hstep
      exact h
    · cases hstep
      simp only [Bool.or_eq_true, Bool.not_eq_true', decide_eq_true_eq, not_or, not_not] at hskip
      refine h.setCall (by rw [hk]; exact nofun) nofun ?_ nofun nofun
      intro token' revision secret' heq
      cases heq
      exact ⟨hskip.1.2.le, le_rfl⟩
  · cases hstep

theorem Inv.compared (hstore : store.folder = w.store.folder) (token : Nat) (isMatch : Bool) :
    Inv { w with store, monitor := w.monitor.compared token isMatch } := by
  have hproof (hp : w.monitor.proof = true) : (w.monitor.compared token isMatch).proof = true :=
    Bool.or_eq_true_iff.mpr (.inl hp)
  exact { h with
    sensing := { h.sensing with granted_imp := fun hg => hproof (h.sensing.granted_imp hg) }
    checked_imp := fun k t r hk ha ht hr => hproof (h.checked_imp k t r hk ha ht hr)
    entry_imp := hstore ▸ h.entry_imp
    removing := hstore ▸ h.removing
    enabled_imp := by simpa only [World.fingerprint, hstore] using h.enabled_imp }

theorem Inv.check (ho : Once w) {now later : Nat} {reads : ReadFaults}
    (hstep : w.step scrypt (.check k now later reads) = some v) : Inv v := by
  simp only [step] at hstep
  split at hstep
  · rename_i token revision secret hk
    cases hstep
    have hfolder : (w.store.verify scrypt now later reads secret).2.folder = w.store.folder := folder_check
    refine (h.compared hfolder token _).setCall ?_ nofun nofun ?_ ?_
    · change ∀ c, w.calls k ≠ .changing c
      rw [hk]
      exact nofun
    · intro token' revision' ok heq
      cases heq
      exact h.checking_le k token revision secret hk
    · intro token' revision' heq hactive htoken _
      injection heq with ht hr hok
      subst ht
      have hresult : (w.store.verify scrypt now later reads secret).1 = .ok () := by
        cases hv : (w.store.verify scrypt now later reads secret).1 with
        | error e =>
          rw [hv] at hok
          cases hok
        | ok => rfl
      obtain ⟨-, c, hc, hmatch⟩ := check_ok_iff.mp hresult
      simp only [Monitor.compared, stored_of_read hc, any_some, hmatch, ho.token_eq hactive, htoken, decide_true,
        Bool.and_self, Bool.or_true]
  · cases hstep

theorem Inv.granted {granted : Bool} (hgranted : granted = true → w.monitor.proof = true) :
    Inv { w with gate := { w.gate with granted } } := { h with sensing := { h.sensing with granted_imp := hgranted } }

theorem Inv.grant (hstep : w.step scrypt (.grant k) = some v) : Inv v := by
  simp only [step] at hstep
  split at hstep
  · rename_i token revision ok hk
    cases hstep
    refine Inv.setCall (h.granted ?_) ?_ nofun nofun nofun nofun
    · intro hg
      simp only [Bool.or_eq_true, Bool.and_eq_true, decide_eq_true_eq] at hg
      rcases hg with hg | ⟨⟨⟨hactive, ht⟩, hr⟩, rfl⟩
      · exact h.sensing.granted_imp hg
      · exact h.checked_imp k token revision hk hactive ht hr
    · change ∀ c, w.calls k ≠ .changing c
      rw [hk]
      exact nofun
  · cases hstep

theorem Inv.consume (hstep : w.step scrypt (.consume token) = some v) : Inv v := by
  cases hstep
  unfold World.consume Gate.consume
  split_ifs
  · exact h
  · exact h.closed rfl rfl (le_succ _) rfl rfl rfl rfl rfl

theorem Inv.poll (hquiet : Quiet w) {p : Poll} (hstep : w.step scrypt (.poll token p) = some v) : Inv v := by
  cases hstep
  have hfinger (he : w.gate.enabled = true) : w.fingerprint = true :=
    (h.enabled_imp he).resolve_right fun ⟨k, c, hk⟩ => hquiet k c hk
  exact h.polled (polled_poll w token p) (h.sensing.poll hfinger token p)

end

theorem Once.of_eq (h : Once w) (hgeneration : v.gate.generation = w.gate.generation)
    (hactive : v.gate.active = w.gate.active) (htoken : v.monitor.token = w.monitor.token)
    (hspent : v.monitor.spent = w.monitor.spent) : Once v := by
  constructor
  · rw [hactive, htoken, hgeneration]
    exact h.token_eq
  · rw [hspent, hgeneration]
    exact h.spent_lt

theorem once_closed (hactive : v.gate.active = false) (hgeneration : w.gate.generation < v.gate.generation)
    (hspent : ∀ x ∈ v.monitor.spent, x ≤ w.gate.generation) : Once v := by
  constructor
  · rw [hactive]
    exact nofun
  · exact fun x hx => (hspent x hx).trans_lt hgeneration

theorem Once.step (h : Once w) {l : Label} (hstep : w.step scrypt l = some v) : Once v := by
  cases l with
  | begin reads lit =>
    cases hstep
    obtain ⟨hgeneration, -⟩ := begin_spec w.gate (read reads w.store.folder) lit
    exact ⟨fun _ => rfl, fun x hx => (h.spent_lt x hx).trans_le ((le_succ _).trans hgeneration.ge)⟩
  | «end» token =>
    cases hstep
    unfold Gate.end
    split_ifs
    · exact h
    · exact once_closed (w := w) rfl (lt_succ_self _) fun x hx => (h.spent_lt x hx).le
  | shutdown =>
    cases hstep
    exact once_closed (w := w) rfl (lt_succ_self _) fun x hx => (h.spent_lt x hx).le
  | change k l =>
    obtain ⟨c, -, ⟨-, rfl⟩ | ⟨-, rfl⟩⟩ := change_cases hstep
    · exact h.of_eq rfl rfl rfl rfl
    · exact h.of_eq rfl rfl rfl rfl
  | finish k =>
    simp only [World.step] at hstep
    split at hstep
    · rename_i c hk
      cases hstep
      cases c <;> exact h.of_eq rfl rfl rfl rfl
    · cases hstep
  | verify k token secret =>
    simp only [World.step] at hstep
    split at hstep
    · split_ifs at hstep <;> cases hstep
      · exact h
      · exact h.of_eq rfl rfl rfl rfl
    · cases hstep
  | check k now later reads | grant k =>
    simp only [World.step] at hstep
    split at hstep
    · cases hstep
      exact h.of_eq rfl rfl rfl rfl
    · cases hstep
  | consume token =>
    cases hstep
    unfold World.consume Gate.consume
    split_ifs with hrefused
    · exact h
    · simp only [Bool.or_eq_true, Bool.not_eq_true', decide_eq_true_eq, not_or, not_not] at hrefused
      refine once_closed (w := w) rfl (lt_succ_self _) ?_
      intro x hx
      rcases mem_cons.mp hx with rfl | hx
      · exact hrefused.1.2.le
      · exact (h.spent_lt x hx).le
  | poll token p =>
    cases hstep
    have hp := polled_poll w token p
    exact h.of_eq hp.generation_eq hp.active_eq hp.token_eq hp.spent_eq

theorem Inv.step (h : Inv w) (ho : Once w) {l : Label} (hl : Ordered w l) (hstep : w.step scrypt l = some v) : Inv v := by
  cases l with
  | begin reads lit => exact h.begin reads lit hstep
  | «end» token =>
    cases hstep
    unfold Gate.end
    split_ifs
    · exact h
    · exact h.closed rfl rfl (le_succ _) rfl rfl rfl rfl rfl
  | shutdown =>
    cases hstep
    exact h.closed rfl rfl (le_succ _) rfl rfl rfl rfl rfl
  | change k l => exact h.change hl.1 hl.2 hstep
  | finish k => exact h.finish hstep
  | verify k token secret => exact h.verify hstep
  | check k now later reads => exact h.check ho hstep
  | grant k => exact h.grant hstep
  | consume token => exact h.consume hstep
  | poll token p => exact h.poll hl hstep

end

theorem once_start (store : Store) : Once { store } := ⟨nofun, nofun⟩

theorem inv_start (store : Store) : Inv { store } :=
  ⟨⟨nofun, nofun, nofun, nofun⟩, nofun, nofun, nofun, nofun, nofun, nofun, nofun, nofun⟩

/-- A session is left once, with the token of the last `Begin`. If changes are ordered and a credential guards the
session or is stored, the user was recognised in it since the last change. -/
theorem consume_authority {scrypt : Bytes → Key → Key} {store : Store} {w : World} {token : Nat}
    (h : Reaches (step scrypt) (fun _ _ => True) { store } w) (hconsume : (w.consume token).1 = true) :
    token ∉ w.monitor.spent ∧ w.monitor.token = some token ∧
      (Reaches (step scrypt) Ordered { store } w → Quiet w →
        w.monitor.guarded = true ∨ w.store.folder.entry ≠ .absent → w.monitor.proof = true) := by
  have honce : Once w := h.invariant (once_start store) fun _ _ _ ho _ hstep => ho.step hstep
  obtain ⟨hactive, rfl, hgranted⟩ : w.gate.active = true ∧ token = w.gate.generation ∧
      (w.gate.required = true → w.gate.granted = true) := by
    simp only [World.consume, Gate.consume] at hconsume
    split_ifs at hconsume with hrefused
    simp only [Bool.or_eq_true, Bool.not_eq_true', decide_eq_true_eq, not_or, not_not, Bool.and_eq_true, not_and,
      Bool.not_eq_false] at hrefused
    exact ⟨hrefused.1.1, hrefused.1.2, hrefused.2⟩
  refine ⟨fun hmem => absurd (honce.spent_lt _ hmem) (lt_irrefl _), honce.token_eq hactive, ?_⟩
  intro hordered hquiet hguard
  have hboth : Inv w ∧ Once w := by
    refine hordered.invariant (I := fun w => Inv w ∧ Once w) ⟨inv_start store, once_start store⟩ ?_
    intro w l v hw hl hstep
    exact ⟨hw.1.step hw.2 hl hstep, hw.2.step hstep⟩
  have hrequired : w.gate.required = true := by
    rcases hguard with hg | he
    · exact hboth.1.guarded_imp hactive hg
    · exact (hboth.1.entry_imp hactive he).resolve_right fun ⟨k, hk⟩ => hquiet k _ hk
  exact hboth.1.sensing.granted_imp (hgranted hrequired)

/-- The record of `pinned`. -/
def sampleCredential : Credential := ⟨.pin, false, zeroKey, plain samplePin zeroKey⟩

theorem read_pinned : read {} pinned.store.folder = .valid sampleCredential := read_format sampleCredential

theorem stored_pinned : pinned.store.folder.stored = some sampleCredential := stored_format sampleCredential

theorem check_pinned : pinned.store.check plain 0 0 (.valid sampleCredential) samplePin = (.ok (), pinned.store) := by
  rfl

/-- A world with a session that `Begin` has opened over that record. -/
def begun : World :=
  { store := pinned.store
    gate := { generation := 1, active := true, required := true }
    monitor := { token := some 1, guarded := true } }

theorem step_begun : step plain { store := pinned.store } (.begin {} true) = some begun := by
  simp only [step, read_pinned]
  rfl

def checkingWorld : World := begun.setCall 0 (.checking 1 0 samplePin)

def checkedWorld : World :=
  { checkingWorld with monitor := { token := some 1, guarded := true, proof := true } }.setCall 0 (.checked 1 0 true)

theorem step_checked : step plain checkingWorld (.check 0 0 0 {}) = some checkedWorld := by
  have hcall : checkingWorld.calls 0 = .checking 1 0 samplePin := rfl
  have hstore : checkingWorld.store = pinned.store := rfl
  have hmatch : pinned.store.folder.stored.any (·.matches plain samplePin) = true := by
    rw [stored_pinned]
    decide
  have hverify : pinned.store.verify plain 0 0 {} samplePin = (.ok (), pinned.store) := by
    rw [Store.verify, read_pinned, check_pinned]
  simp only [step, hcall, hstore, hverify, hmatch]
  rfl

def grantedWorld : World := { checkedWorld with gate := { begun.gate with granted := true } }.setCall 0 .idle

theorem step_granted : step plain checkedWorld (.grant 0) = some grantedWorld := by
  rfl

theorem quiet_grantedWorld : Quiet grantedWorld := by
  intro k c hk
  by_cases h : k = 0
  · subst h
    simp [grantedWorld, World.setCall] at hk
  · simp [grantedWorld, checkedWorld, checkingWorld, begun, World.setCall] at hk

theorem consume_authority_sample : Quiet grantedWorld ∧ (grantedWorld.consume 1).1 = true ∧
    1 ∉ grantedWorld.monitor.spent ∧ grantedWorld.monitor.token = some 1 ∧ grantedWorld.monitor.proof = true := by
  have hverify : step plain begun (.verify 0 1 samplePin) = some checkingWorld := rfl
  have hbegun : Reaches (step plain) Ordered { store := pinned.store } begun :=
    .step .refl (a := .begin {} true) trivial step_begun
  have hchecked : Reaches (step plain) Ordered { store := pinned.store } checkedWorld :=
    .step (.step hbegun (a := .verify 0 1 samplePin) trivial hverify) (a := .check 0 0 0 {}) trivial step_checked
  have hrun : Reaches (step plain) Ordered { store := pinned.store } grantedWorld :=
    .step hchecked (a := .grant 0) trivial step_granted
  have hany := hrun.mono fun _ _ _ => trivial
  have hconsume : (grantedWorld.consume 1).1 = true := rfl
  obtain ⟨hspent, htoken, hproof⟩ := consume_authority hany hconsume
  exact ⟨quiet_grantedWorld, hconsume, hspent, htoken, hproof hrun quiet_grantedWorld (.inl rfl)⟩

/-- The session after a call has removed the record, and has not come to the gate yet. -/
def removedWorld : World :=
  { begun with store := { pinned.store with folder := .present true .absent } }.setCall 0 (.changing .remove)

theorem step_removed : step plain begun (.change 0 { call := .remove samplePin }) = some removedWorld := by
  have hcall : begun.calls 0 = .idle := rfl
  have hstore : begun.store = pinned.store := rfl
  have hremove : pinned.store.apply plain { call := .remove samplePin } =
      (.ok (), { pinned.store with folder := .present true .absent }) := by
    simp only [Store.apply, Store.remove, read_pinned, check_pinned]
    rfl
  simp only [step, hcall, World.kind, hstore, hremove]
  rfl

def replacedWorld : World :=
  { removedWorld with
    store := { pinned.store with
      folder := .present true (.file true (format ⟨.pin, false, zeroKey, plain otherPin zeroKey⟩)) } }.setCall 1
    (.changing .set)

theorem step_replaced :
    step plain removedWorld (.change 1 { call := .set false zeroKey [] (some .pin) otherPin otherPin }) =
      some replacedWorld := by
  rfl

/-- The record is removed by one call and set anew by another, and the first one is the last at the gate: the session
is left without a secret although one is stored. -/
theorem consume_unguarded : ∃ w, Reaches (step plain) (fun _ _ => True) { store := pinned.store } w ∧
    (w.consume 1).1 = true ∧ w.store.folder.stored = some ⟨.pin, false, zeroKey, plain otherPin zeroKey⟩ ∧
    w.monitor.proof = false := by
  have hbegun : Reaches (step plain) (fun _ _ => True) { store := pinned.store } begun :=
    .step .refl (a := .begin {} true) trivial step_begun
  have hreplaced : Reaches (step plain) (fun _ _ => True) { store := pinned.store } replacedWorld :=
    .step (.step hbegun trivial step_removed) trivial step_replaced
  have hrun := (hreplaced.step (a := .finish 1) trivial rfl).step (a := .finish 0) trivial rfl
  exact ⟨_, hrun, rfl, stored_format _, rfl⟩

end AeraRecovery.ScreenLock
