import AeraRecovery.Lib.Steps
import AeraRecovery.PcStorage.Bridge

namespace AeraRecovery.PcStorage

open Lib Bytes Steps List Function Option Nat

theorem pending_iff {b : Bridge} {owner : Bytes} {id : Nat} : b.pending owner id = true ↔
    b.active = true ∧ b.waiting = true ∧ b.answered = false ∧ owner = b.owner ∧ id = b.sequence := by
  simp only [Bridge.pending, Bool.and_eq_true, Bool.not_eq_true', decide_eq_true_eq, and_assoc]

theorem errno_range {reply : Json} (h : errnoValid reply = true) : 0 ≤ errno reply ∧ errno reply ≤ 4095 := by
  rw [errnoValid, Bool.and_eq_true] at h
  rw [errno, Json.get]
  cases hfind : reply.find (ascii "errno") with
  | none => exact ⟨Int.le_refl 0, by decide⟩
  | some value =>
    rw [hfind, all_some, Bool.and_eq_true, Bool.and_eq_true] at h
    exact ⟨of_decide_eq_true h.2.1.2, of_decide_eq_true h.2.2⟩

def Shown.Permitted (s : System) : Shown → Prop
  | .request owner shown => ∃ issue, s.issued shown.id = some issue ∧ owner = s.owners issue.session ∧
      shown = issue.request
  | .data owner id frame shown => ∃ issue, s.issued id = some issue ∧ owner = s.owners issue.session ∧
      shown = frame ++ issue.data

inductive Effect (s : System) : Label → System → Prop
  | same {l : Label} : Effect s l s
  | begin {owner : Bytes} {writable : Bool} (hactive : s.bridge.active = false) (hwaiting : s.bridge.waiting = false) :
      Effect s (.begin owner writable)
        { s with
          bridge := { s.bridge with
            active := true, writable := writable, owner := owner, waiting := false, answered := false }
          session := s.session + 1
          owners := update s.owners (s.session + 1) owner }
  | stop : Effect s .stop { s with bridge := s.bridge.stop, closed := s.bridge.sequence }
  | polled {owner : Bytes} (hactive : s.bridge.active = true) (hwaiting : s.bridge.waiting = true)
      (howner : owner = s.bridge.owner) :
      Effect s (.poll owner) { s with shown := .request owner s.bridge.request :: s.shown }
  | read {l : Label} {owner : Bytes} {id : Nat} (frame : Bytes) (hpending : s.bridge.pending owner id = true) :
      Effect s l { s with shown := .data owner id frame (frame ++ s.bridge.data) :: s.shown }
  | reply {owner : Bytes} {id : Nat} {reply : Json} {data : Bytes} (hpending : s.bridge.pending owner id = true)
      (herrno : errnoValid reply = true) (hvalid : errno reply = 0 → replyValid s.bridge.request reply data = true) :
      Effect s (.reply owner id reply data)
        { s with
          bridge := { s.bridge with reply := reply, replyData := data, answered := true }
          answers := ⟨id, owner, s.closed, reply, data⟩ :: s.answers }
  | queue {l : Label} {k made : Nat} {request : Request} {writeData : Bytes}
      (hmade : made = s.session ∨ s.callers k = .queued made request writeData) :
      Effect s l (s.set k (.queued made request writeData))
  | refuse {l : Label} {k : Nat} (r : Returned) (hr : r = .invalid ∨ r = .failed) :
      Effect s l (s.set k (.returned r))
  | issue {l : Label} {k made : Nat} {request : Request} {writeData : Bytes} (hactive : s.bridge.active = true)
      (hwaiting : s.bridge.waiting = false)
      (hmade : made = s.session ∨ s.callers k = .queued made request writeData) :
      Effect s l
        { s with
          bridge := s.bridge.issue request writeData
          callers := update s.callers k (.waiting (s.bridge.sequence + 1))
          issued := update s.issued (s.bridge.sequence + 1)
            (some ⟨k, made, s.session, { request with id := s.bridge.sequence + 1 }, writeData⟩) }
  | answered {k id : Nat} (hcaller : s.callers k = .waiting id) (hactive : s.bridge.active = true)
      (hanswered : s.bridge.answered = true) :
      Effect s (.finish k)
        { s with
          bridge := s.bridge.finish
          callers := update s.callers k
            (.returned (.peer id (-max 0 (min (errno s.bridge.reply) 4095)) s.bridge.reply s.bridge.replyData)) }
  | ended {k id : Nat} (hcaller : s.callers k = .waiting id) (hover : (s.bridge.active && s.bridge.answered) = false) :
      Effect s (.finish k)
        { s with
          bridge := s.bridge.finish
          callers := update s.callers k (.returned .failed)
          closed := s.bridge.sequence }

section

variable {s s' : System} (owner : Bytes)

theorem effect_begin (writable : Bool) (h : step s (.begin owner writable) = some s') :
    Effect s (.begin owner writable) s' := by
  have hs' := some.inj h
  rw [← hs']
  cases hbegin : s.bridge.begin owner writable with
  | none => exact .same
  | some b =>
    obtain ⟨hfree, hb⟩ := ite_none_left_eq_some.mp hbegin
    rw [← some.inj hb]
    simp only [Bool.or_eq_true, not_or, Bool.not_eq_true] at hfree
    exact .begin hfree.1.1 hfree.1.2

theorem effect_poll (h : step s (.poll owner) = some s') : Effect s (.poll owner) s' := by
  have hs' := some.inj h
  rw [← hs', Bridge.poll]
  split_ifs with hout hidle
  · exact .same
  · exact .same
  · simp only [Bool.or_eq_true, Bool.not_eq_true', decide_eq_true_eq, not_or, not_not, Bool.not_eq_false] at hout hidle
    exact .polled hout.1 hidle.1 hout.2

theorem effect_reply (id : Nat) (reply : Json) (data : Bytes)
    (h : step s (.reply owner id reply data) = some s') : Effect s (.reply owner id reply data) s' := by
  have hs' := some.inj h
  rw [← hs', Bridge.accept]
  split_ifs with hvalid
  · simp only [Bool.and_eq_true, Bool.or_eq_true, decide_eq_true_eq] at hvalid
    exact .reply hvalid.1.1.1 hvalid.1.2 fun hzero => hvalid.2.resolve_left (not_not.mpr hzero)
  · exact .same

theorem effect_enter {l : Label} {k made : Nat} {request : Request} {writeData : Bytes}
    (hmade : made = s.session ∨ s.callers k = .queued made request writeData) :
    Effect s l (s.enter k made request writeData) := by
  rw [System.enter, System.proceed, Bridge.turn]
  split_ifs with hturn hactive
  · exact .issue hactive (by simpa [hactive] using hturn) hmade
  · exact .refuse _ (.inr rfl)
  · exact .queue hmade

theorem effect_finish {k id : Nat} (hcaller : s.callers k = .waiting id) : Effect s (.finish k) (s.finish k id) := by
  rw [System.finish, Bridge.result]
  by_cases hanswer : (s.bridge.active && s.bridge.answered) = true
  · rw [if_pos hanswer]
    rw [Bool.and_eq_true] at hanswer
    exact .answered hcaller hanswer.1 hanswer.2
  · rw [if_neg hanswer]
    exact .ended hcaller (Bool.eq_false_iff.mpr hanswer)

theorem effect_of_step {l : Label} (h : step s l = some s') : Effect s l s' := by
  cases l with
  | begin owner writable => exact effect_begin owner writable h
  | stop => cases h; exact .stop
  | heartbeat => cases h; exact .same
  | poll owner => exact effect_poll owner h
  | data owner id =>
    have hs' := some.inj h
    rw [← hs', Bridge.dataFor]
    split_ifs with hpending
    · exact .read [] hpending
    · exact .same
  | appendData owner id frame =>
    have hs' := some.inj h
    rw [← hs', Bridge.appendData]
    split_ifs with hpending
    · exact .read frame hpending
    · exact .same
  | reply owner id reply data => exact effect_reply owner id reply data h
  | call k request writeData =>
    rw [step] at h
    cases hk : s.callers k with
    | queued | waiting | returned => rw [hk] at h; cases h
    | idle =>
      rw [hk] at h
      rw [← some.inj h]
      split_ifs
      · exact effect_enter (.inl rfl)
      · exact .refuse _ (.inl rfl)
  | wake k =>
    rw [step] at h
    cases hk : s.callers k with
    | idle | waiting | returned => rw [hk] at h; cases h
    | queued made request writeData =>
      rw [hk] at h
      rw [← some.inj h]
      exact effect_enter (.inr hk)
  | finish k =>
    rw [step] at h
    cases hk : s.callers k with
    | idle | queued | returned => rw [hk] at h; cases h
    | waiting id =>
      rw [hk] at h
      rw [← some.inj h]
      exact effect_finish hk

end

structure Accepted (s : System) (issue : Issue) (id : Nat) (reply : Json) (data : Bytes) : Prop where
  mem : ∃ a ∈ s.answers, a.id = id ∧ a.owner = s.owners issue.session ∧ a.reply = reply ∧ a.data = data
  range : 0 ≤ errno reply ∧ errno reply ≤ 4095
  valid : errno reply = 0 → replyValid issue.request reply data = true

/-- What a `Call` has from the computer is the answer to its own request. -/
def Peer (s : System) (k id : Nat) (result : Int) (reply : Json) (data : Bytes) : Prop :=
  ∃ issue, s.issued id = some issue ∧ issue.caller = k ∧ Accepted s issue id reply data ∧ result = -errno reply

structure Outstanding (s : System) (issue : Issue) : Prop where
  issued : s.issued s.bridge.sequence = some issue
  session : issue.session = s.session
  request : s.bridge.request = issue.request
  id : issue.request.id = s.bridge.sequence
  data : s.bridge.data = issue.data
  fresh : s.bridge.answered = false → ∀ a ∈ s.answers, a.id < s.bridge.sequence
  kept : s.bridge.answered = true → Accepted s issue s.bridge.sequence s.bridge.reply s.bridge.replyData

structure Inv (s : System) : Prop where
  owner : s.bridge.active = true → s.bridge.owner = s.owners s.session
  issued : ∀ id issue, s.issued id = some issue → id ≤ s.bridge.sequence ∧ issue.session ≤ s.session
  closed : s.closed ≤ s.bridge.sequence
  opened : s.bridge.active = true → s.bridge.waiting = true → s.closed < s.bridge.sequence
  waiting : s.bridge.waiting = true → ∃ issue, Outstanding s issue
  caller : ∀ k id, s.callers k = .waiting id → s.bridge.waiting = true ∧ id = s.bridge.sequence ∧
    ∃ issue, s.issued id = some issue ∧ issue.caller = k
  answers : ∀ a ∈ s.answers, a.closed < a.id ∧ a.id ≤ s.bridge.sequence
  once : (s.answers.map Answer.id).Nodup
  shown : ∀ x ∈ s.shown, x.Permitted s
  peers : ∀ k id result reply data, s.callers k = .returned (.peer id result reply data) →
    Peer s k id result reply data

structure Extends (s s' : System) : Prop where
  issued : ∀ id issue, s.issued id = some issue → s'.issued id = some issue
  owners : ∀ n ≤ s.session, s'.owners n = s.owners n
  answers : ∀ a ∈ s.answers, a ∈ s'.answers

section

variable {s s' : System}

theorem Extends.accepted {issue : Issue} {id : Nat} {reply : Json} {data : Bytes} (h : Extends s s')
    (hsession : issue.session ≤ s.session) (ha : Accepted s issue id reply data) : Accepted s' issue id reply data := by
  obtain ⟨a, hmem, hid, howner, hreply⟩ := ha.mem
  exact ⟨⟨a, h.answers a hmem, hid, howner.trans (h.owners _ hsession).symm, hreply⟩, ha.range, ha.valid⟩

theorem Extends.peer {k id : Nat} {result : Int} {reply : Json} {data : Bytes} (h : Extends s s') (hs : Inv s)
    (hp : Peer s k id result reply data) : Peer s' k id result reply data := by
  obtain ⟨issue, hissue, hcaller, hanswer, hresult⟩ := hp
  exact ⟨issue, h.issued id issue hissue, hcaller, h.accepted (hs.issued id issue hissue).2 hanswer, hresult⟩

theorem Extends.permitted {x : Shown} (h : Extends s s') (hs : Inv s) (hx : x.Permitted s) : x.Permitted s' := by
  cases x with
  | request owner shown | data owner id frame shown =>
    obtain ⟨issue, hissue, howner, hshown⟩ := hx
    exact ⟨issue, h.issued _ issue hissue, howner.trans (h.owners _ (hs.issued _ issue hissue).2).symm, hshown⟩

variable {l : Label}

section

variable (hs : Inv s) (h : Effect s l s')

include hs h

theorem extends_of_effect : Extends s s' := by
  cases h with
  | same | stop | polled | read | queue | refuse | answered | ended =>
    exact ⟨fun _ _ h => h, fun _ _ => rfl, fun _ h => h⟩
  | begin =>
    refine ⟨fun _ _ h => h, fun n hn => ?_, fun _ h => h⟩
    exact update_of_ne (by omega) _ _
  | reply => exact ⟨fun _ _ h => h, fun _ _ => rfl, fun _ h => mem_cons_of_mem _ h⟩
  | issue =>
    refine ⟨fun id issue h => ?_, fun _ _ => rfl, fun _ h => h⟩
    have hle := (hs.issued id issue h).1
    exact (update_of_ne (by omega) _ _).trans h

theorem owner_of_effect (hactive : s'.bridge.active = true) : s'.bridge.owner = s'.owners s'.session := by
  cases h with
  | same | polled | read | reply | queue | refuse | issue => exact hs.owner hactive
  | begin =>
    dsimp only
    rw [update_self]
  | stop => cases hactive
  | answered | ended => exact hs.owner ((Bool.and_eq_true _ _).mp hactive).1

theorem issued_of_effect (id : Nat) (issue : Issue)
    (hissue : s'.issued id = some issue) : id ≤ s'.bridge.sequence ∧ issue.session ≤ s'.session := by
  cases h with
  | same | stop | polled | read | reply | queue | refuse | answered | ended => exact hs.issued id issue hissue
  | begin =>
    have hold := hs.issued id issue hissue
    exact ⟨hold.1, le_succ_of_le hold.2⟩
  | issue =>
    dsimp only [Bridge.issue] at hissue ⊢
    by_cases hid : id = s.bridge.sequence + 1
    · rw [hid, update_self] at hissue
      rw [← some.inj hissue]
      exact ⟨hid.le, le_rfl⟩
    · rw [update_of_ne hid] at hissue
      have hold := hs.issued id issue hissue
      exact ⟨le_succ_of_le hold.1, hold.2⟩

theorem closed_of_effect : s'.closed ≤ s'.bridge.sequence := by
  cases h with
  | same | begin | polled | read | reply | queue | refuse | answered => exact hs.closed
  | stop | ended => exact le_rfl
  | issue => exact le_succ_of_le hs.closed

theorem opened_of_effect (hactive : s'.bridge.active = true)
    (hwaiting : s'.bridge.waiting = true) : s'.closed < s'.bridge.sequence := by
  cases h with
  | same | polled | read | reply | queue | refuse => exact hs.opened hactive hwaiting
  | begin | answered | ended => cases hwaiting
  | stop => cases hactive
  | issue => exact lt_succ_of_le hs.closed

end

theorem Outstanding.keep {issue : Issue} (h : Outstanding s issue) (hs : Inv s) (hextends : Extends s s')
    (hbridge : s'.bridge = { s.bridge with active := s'.bridge.active }) (hsession : s'.session = s.session)
    (hanswers : s'.answers = s.answers) : Outstanding s' issue := by
  have hle := (hs.issued _ issue h.issued).2
  constructor
  · rw [hbridge]
    exact hextends.issued _ issue h.issued
  · exact h.session.trans hsession.symm
  · rw [hbridge]
    exact h.request
  · rw [hbridge]
    exact h.id
  · rw [hbridge]
    exact h.data
  · rw [hbridge, hanswers]
    exact h.fresh
  · rw [hbridge]
    exact fun hanswered => hextends.accepted hle (h.kept hanswered)

section

variable (hs : Inv s)

include hs

theorem outstanding_of_effect (h : Effect s l s') (hwaiting : s'.bridge.waiting = true) :
    ∃ issue, Outstanding s' issue := by
  have hextends := extends_of_effect hs h
  cases h with
  | same | stop | polled | read | queue | refuse =>
    obtain ⟨issue, hissue⟩ := hs.waiting hwaiting
    exact ⟨issue, hissue.keep hs hextends rfl rfl rfl⟩
  | begin | answered | ended => cases hwaiting
  | reply hpending herrno hvalid =>
    obtain ⟨issue, hissue⟩ := hs.waiting hwaiting
    obtain ⟨hactive, -, -, howner, hid⟩ := pending_iff.mp hpending
    refine ⟨issue, hissue.issued, hissue.session, hissue.request, hissue.id, hissue.data, nofun, fun _ => ?_⟩
    refine ⟨⟨_, mem_cons_self, hid, ?_, rfl, rfl⟩, errno_range herrno, ?_⟩
    · rw [hissue.session]
      exact howner.trans (hs.owner hactive)
    · rw [← hissue.request]
      exact hvalid
  | issue =>
    refine ⟨_, update_self _ _ _, rfl, rfl, rfl, rfl, fun _ a ha => ?_, nofun⟩
    exact lt_succ_of_le (hs.answers a ha).2

theorem Inv.caller_unique {j k id id' : Nat} (hj : s.callers j = .waiting id)
    (hk : s.callers k = .waiting id') : j = k := by
  obtain ⟨-, rfl, issue, hissue, rfl⟩ := hs.caller j id hj
  obtain ⟨-, rfl, issue', hissue', rfl⟩ := hs.caller k id' hk
  rw [hissue] at hissue'
  rw [some.inj hissue']

section

variable (h : Effect s l s')

include h

theorem caller_of_effect (j id : Nat)
    (hj : s'.callers j = .waiting id) : s'.bridge.waiting = true ∧ id = s'.bridge.sequence ∧
      ∃ issue, s'.issued id = some issue ∧ issue.caller = j := by
  cases h with
  | same | stop | polled | read | reply => exact hs.caller j id hj
  | begin _ hwaiting =>
    rw [(hs.caller j id hj).1] at hwaiting
    cases hwaiting
  | queue | refuse => exact hs.caller j id (of_update hj (by simp)).2
  | issue _ hwaiting =>
    rcases update_cases hj with ⟨rfl, hnew⟩ | ⟨-, hold⟩
    · cases hnew
      exact ⟨rfl, rfl, _, update_self _ _ _, rfl⟩
    · rw [(hs.caller j id hold).1] at hwaiting
      cases hwaiting
  | answered hcaller | ended hcaller =>
    rcases update_cases hj with ⟨-, hnew⟩ | ⟨hne, hold⟩
    · cases hnew
    · exact absurd (hs.caller_unique hold hcaller) hne

theorem answers_of_effect (a : Answer) (ha : a ∈ s'.answers) : a.closed < a.id ∧ a.id ≤ s'.bridge.sequence := by
  cases h with
  | same | begin | stop | polled | read | queue | refuse | answered | ended => exact hs.answers a ha
  | reply hpending =>
    obtain ⟨hactive, hwaiting, -, -, hid⟩ := pending_iff.mp hpending
    rcases mem_cons.mp ha with rfl | ha
    · rw [hid]
      exact ⟨hs.opened hactive hwaiting, le_rfl⟩
    · exact hs.answers a ha
  | issue =>
    have hold := hs.answers a ha
    exact ⟨hold.1, le_succ_of_le hold.2⟩

theorem once_of_effect : (s'.answers.map Answer.id).Nodup := by
  cases h with
  | same | begin | stop | polled | read | queue | refuse | issue | answered | ended => exact hs.once
  | reply hpending =>
    obtain ⟨-, hwaiting, hanswered, -, hid⟩ := pending_iff.mp hpending
    obtain ⟨issue, hissue⟩ := hs.waiting hwaiting
    refine nodup_cons.mpr ⟨fun hmem => ?_, hs.once⟩
    obtain ⟨a, ha, haid⟩ := mem_map.mp hmem
    have hlt := hissue.fresh hanswered a ha
    rw [haid, hid] at hlt
    exact lt_irrefl _ hlt

theorem shown_of_effect (x : Shown) (hx : x ∈ s'.shown) : x.Permitted s' := by
  have hextends := extends_of_effect hs h
  cases h with
  | same | begin | stop | reply | queue | refuse | issue | answered | ended =>
    exact hextends.permitted hs (hs.shown x hx)
  | polled hactive hwaiting howner =>
    rcases mem_cons.mp hx with rfl | hx
    · obtain ⟨issue, hissue⟩ := hs.waiting hwaiting
      refine ⟨issue, ?_, ?_, hissue.request⟩
      · rw [hissue.request, hissue.id]
        exact hissue.issued
      · rw [hissue.session]
        exact howner.trans (hs.owner hactive)
    · exact hextends.permitted hs (hs.shown x hx)
  | read frame hpending =>
    rcases mem_cons.mp hx with rfl | hx
    · obtain ⟨hactive, hwaiting, -, howner, hid⟩ := pending_iff.mp hpending
      obtain ⟨issue, hissue⟩ := hs.waiting hwaiting
      refine ⟨issue, ?_, ?_, congrArg (frame ++ ·) hissue.data⟩
      · rw [hid]
        exact hissue.issued
      · rw [hissue.session]
        exact howner.trans (hs.owner hactive)
    · exact hextends.permitted hs (hs.shown x hx)

theorem peers_of_effect (j id : Nat) (result : Int) (reply : Json)
    (data : Bytes) (hj : s'.callers j = .returned (.peer id result reply data)) : Peer s' j id result reply data := by
  have hextends := extends_of_effect hs h
  have hold := fun hj => hextends.peer hs (hs.peers j id result reply data hj)
  cases h with
  | same | begin | stop | polled | read | reply => exact hold hj
  | queue | issue | ended => exact hold (of_update hj (by simp)).2
  | refuse r hr =>
    rcases update_cases hj with ⟨-, hnew⟩ | ⟨-, hj⟩
    · rcases hr with rfl | rfl
      · cases hnew
      · cases hnew
    · exact hold hj
  | answered hcaller hactive hanswered =>
    rcases update_cases hj with ⟨rfl, hnew⟩ | ⟨-, hj⟩
    · cases hnew
      obtain ⟨hwaiting, rfl, issue, hissue, hk⟩ := hs.caller j _ hcaller
      obtain ⟨out, hout⟩ := hs.waiting hwaiting
      obtain rfl := some.inj (hissue.symm.trans hout.issued)
      have haccepted := hout.kept hanswered
      refine ⟨issue, hissue, hk, hextends.accepted hout.session.le haccepted, ?_⟩
      have hrange := haccepted.range
      omega
    · exact hold hj

theorem Inv.effect : Inv s' :=
  ⟨owner_of_effect hs h, issued_of_effect hs h, closed_of_effect hs h, opened_of_effect hs h,
    outstanding_of_effect hs h, caller_of_effect hs h, answers_of_effect hs h, once_of_effect hs h,
    shown_of_effect hs h, peers_of_effect hs h⟩

end

end

theorem inv_init : Inv {} :=
  ⟨nofun, nofun, le_refl 0, nofun, nofun, nofun, nofun, nodup_nil, nofun, nofun⟩

theorem inv_of_reaches {P : System → Label → Prop} (h : Reaches step P {} s) : Inv s :=
  h.invariant inv_init fun _ _ _ hs _ hstep => hs.effect (effect_of_step hstep)

end

/-- No session begins while a `Call` of an earlier one waits for its turn, and no more comes with a reply that reports
an error than the request asks for. -/
def Orderly (s : System) : Label → Prop
  | .begin _ _ => s.bridge.active = false → s.bridge.waiting = false →
      ∀ k made request writeData, s.callers k ≠ .queued made request writeData
  | .reply owner id reply data => s.bridge.pending owner id = true → errno reply ≠ 0 →
      fits s.bridge.request data = true
  | .stop | .heartbeat _ | .poll _ | .data _ _ | .appendData _ _ _ | .call _ _ _ | .wake _ | .finish _ => True

structure Settled (s : System) : Prop where
  queued : ∀ k made request writeData, s.callers k = .queued made request writeData → made = s.session
  made : ∀ id issue, s.issued id = some issue → issue.made = issue.session
  fits : ∀ a ∈ s.answers, ∀ issue, s.issued a.id = some issue → fits issue.request a.data = true

section

variable {s s' : System} {l : Label}

theorem queued_of_effect (h : Effect s l s') (hs : Settled s) (horderly : Orderly s l) (j made : Nat)
    (request : Request) (writeData : Bytes) (hj : s'.callers j = .queued made request writeData) :
    made = s'.session := by
  cases h with
  | same | stop | polled | read | reply => exact hs.queued j made request writeData hj
  | begin hactive hwaiting => exact absurd hj (horderly hactive hwaiting j made request writeData)
  | queue hmade =>
    rcases update_cases hj with ⟨rfl, hnew⟩ | ⟨-, hold⟩
    · cases hnew
      exact hmade.elim id fun hold => hs.queued _ _ _ _ hold
    · exact hs.queued j made request writeData hold
  | refuse | issue | answered | ended => exact hs.queued j made request writeData (of_update hj (by simp)).2

theorem made_of_effect (h : Effect s l s') (hs : Settled s) (id : Nat) (issue : Issue)
    (hissue : s'.issued id = some issue) : issue.made = issue.session := by
  cases h with
  | same | begin | stop | polled | read | reply | queue | refuse | answered | ended => exact hs.made id issue hissue
  | issue _ _ hmade =>
    rcases update_cases hissue with ⟨-, hnew⟩ | ⟨-, hold⟩
    · rw [← some.inj hnew]
      exact hmade.elim (fun h => h) fun hold => hs.queued _ _ _ _ hold
    · exact hs.made id issue hold

theorem fits_of_valid {request : Request} {reply : Json} {data : Bytes} (h : replyValid request reply data = true) :
    fits request data = true := by
  rw [replyValid, Bool.and_eq_true, Bool.and_eq_true] at h
  exact h.1.2

theorem fits_of_effect (h : Effect s l s') (hinv : Inv s) (hs : Settled s) (horderly : Orderly s l) (a : Answer)
    (ha : a ∈ s'.answers) (issue : Issue) (hissue : s'.issued a.id = some issue) :
    fits issue.request a.data = true := by
  cases h with
  | same | begin | stop | polled | read | queue | refuse | answered | ended => exact hs.fits a ha issue hissue
  | reply hpending _ hvalid =>
    rcases mem_cons.mp ha with rfl | ha
    · obtain ⟨-, hwaiting, -, -, hid⟩ := pending_iff.mp hpending
      obtain ⟨out, hout⟩ := hinv.waiting hwaiting
      rw [hid] at hissue
      obtain rfl := some.inj (hissue.symm.trans hout.issued)
      rw [← hout.request]
      exact Decidable.byCases (fun hzero => fits_of_valid (hvalid hzero)) (horderly hpending)
    · exact hs.fits a ha issue hissue
  | issue =>
    have hle := (hinv.answers a ha).2
    rcases update_cases hissue with ⟨hid, -⟩ | ⟨-, hold⟩
    · omega
    · exact hs.fits a ha issue hold

theorem settled_of_reaches {P : System → Label → Prop} (h : Reaches step P {} s) (hP : ∀ t l, P t l → Orderly t l) :
    Settled s := by
  have hboth : Inv s ∧ Settled s := by
    refine h.invariant (I := fun s => Inv s ∧ Settled s) ⟨inv_init, nofun, nofun, nofun⟩ ?_
    intro t l t' ⟨hinv, hs⟩ hPt hstep
    have heffect := effect_of_step hstep
    have horderly := hP t l hPt
    exact ⟨hinv.effect heffect, queued_of_effect heffect hs horderly, made_of_effect heffect hs,
      fits_of_effect heffect hinv hs horderly⟩
  exact hboth.2

end

/-- In every run a `Call` that returns an answer of the computer returns the one reply that was accepted for its own
request, from the owner of the session in which the request was issued. In an orderly run that is the session in which
the `Call` was made, and the data fit the operation. At most one reply is accepted for a request, none after a stop or
a timeout, and a request and its data are shown only to the owner of its session. -/
theorem replies_match {P : System → Label → Prop} {s : System} (h : Reaches step P {} s) :
    (∀ k id result reply data, s.callers k = .returned (.peer id result reply data) →
      ∃ issue answer, s.issued id = some issue ∧ issue.caller = k ∧ answer ∈ s.answers ∧ answer.id = id ∧
        (∀ other ∈ s.answers, other.id = id → other = answer) ∧ answer.reply = reply ∧ answer.data = data ∧
        answer.owner = s.owners issue.session ∧ result = -errno reply ∧
        (errno reply = 0 → replyValid issue.request reply data = true) ∧
        ((∀ t l, P t l → Orderly t l) → answer.owner = s.owners issue.made ∧ fits issue.request data = true)) ∧
    (s.answers.map Answer.id).Nodup ∧ (∀ x ∈ s.shown, x.Permitted s) ∧ ∀ a ∈ s.answers, a.closed < a.id := by
  have hs := inv_of_reaches h
  refine ⟨?_, hs.once, hs.shown, fun a ha => (hs.answers a ha).1⟩
  intro k id result reply data hk
  obtain ⟨issue, hissue, hcaller, haccepted, hresult⟩ := hs.peers k id result reply data hk
  obtain ⟨answer, hmem, hid, howner, hreply, hdata⟩ := haccepted.mem
  have hunique : ∀ other ∈ s.answers, other.id = id → other = answer :=
    fun other hother hsame => inj_on_of_nodup_map hs.once hother hmem (hsame.trans hid.symm)
  refine ⟨issue, answer, hissue, hcaller, hmem, hid, hunique, hreply, hdata, howner, hresult, haccepted.valid, ?_⟩
  intro hP
  have hsettled := settled_of_reaches h hP
  constructor
  · rw [hsettled.made id issue hissue]
    exact howner
  · rw [← hdata]
    exact hsettled.fits answer hmem issue (hid ▸ hissue)

def readRequest : Request := { op := ascii "read", path := some (ascii "/a"), size := 4 }

/-- Somebody else tries to answer a read before the owner of the session does. -/
theorem replies_match_read :
    ∃ s, Reaches step Orderly {} s ∧ s.callers 0 = .returned (.peer 1 0 (.object []) [1, 2, 3]) ∧
      ∃ issue answer, s.issued 1 = some issue ∧ answer ∈ s.answers ∧ answer.owner = s.owners issue.made ∧
        fits issue.request [1, 2, 3] = true := by
  have hrun : Reaches step Orderly {} _ := Reaches.refl
    |>.step (a := .begin (ascii "x") false) (fun _ _ _ _ _ _ => nofun) rfl
    |>.step (a := .call 0 readRequest []) trivial rfl
    |>.step (a := .poll (ascii "x")) trivial rfl
    |>.step (a := .reply (ascii "y") 1 (.object []) [7]) (fun _ hzero => absurd rfl hzero) rfl
    |>.step (a := .reply (ascii "x") 1 (.object []) [1, 2, 3]) (fun _ hzero => absurd rfl hzero) rfl
    |>.step (a := .finish 0) trivial rfl
  obtain ⟨hpeers, -⟩ := replies_match hrun
  obtain ⟨issue, answer, hissue, -, hmem, -, -, -, -, -, -, -, horderly⟩ := hpeers 0 1 0 (.object []) [1, 2, 3] rfl
  exact ⟨_, hrun, rfl, issue, answer, hissue, hmem, horderly fun _ _ h => h⟩

def failure : Json := .object [(ascii "errno", .integer 5)]

/-- A second `Call` waits while the first one does. The session is stopped, the first `Call` returns, and another
session begins before the second `Call` has seen the stop. -/
def restartLabels : List Label :=
  [.begin (ascii "x") false, .call 0 readRequest [], .call 1 readRequest [], .stop, .finish 0,
    .begin (ascii "y") false, .wake 1, .reply (ascii "y") 2 (.object []) [], .finish 1]

def failureLabels : List Label :=
  [.begin (ascii "x") false, .call 0 readRequest [], .reply (ascii "x") 1 failure [1, 2, 3, 4, 5], .finish 0]

/-- The answer may come from the owner of another session than that of the `Call`, and more data than requested may
come with an error. -/
theorem replies_cross_sessions : (¬ ∀ s, Reaches step (fun _ _ => True) {} s →
      ∀ k id result reply data, s.callers k = .returned (.peer id result reply data) →
        ∃ issue, ∃ answer ∈ s.answers, s.issued id = some issue ∧ answer.id = id ∧
          answer.owner = s.owners issue.made) ∧ ¬ ∀ s, Reaches step (fun _ _ => True) {} s →
      ∀ k id result reply data, s.callers k = .returned (.peer id result reply data) →
        ∃ issue, s.issued id = some issue ∧ fits issue.request data = true := by
  constructor
  · intro h
    have hrun : restartLabels.foldlM step {} = some _ := rfl
    obtain ⟨issue, answer, hmem, hissue, -, howner⟩ := h _ (reaches_of_foldlM hrun) 1 2 0 (.object []) [] rfl
    obtain rfl := mem_singleton.mp hmem
    rw [← some.inj hissue] at howner
    exact absurd howner (by decide)
  · intro h
    have hrun : failureLabels.foldlM step {} = some _ := rfl
    obtain ⟨issue, hissue, hfits⟩ := h _ (reaches_of_foldlM hrun) 0 1 (-5) failure [1, 2, 3, 4, 5] rfl
    rw [← some.inj hissue] at hfits
    exact absurd hfits (by decide)

end AeraRecovery.PcStorage
