import AeraRecovery.PcConnection.Pairing

namespace AeraRecovery.PcConnection

open Lib Bytes List Option Nat

def pending (id : Bytes) : List Event → Option (Bytes × Nat)
  | [] => none
  | .requested id' key made :: _ => if id' = id then some (key, made) else none
  | .allowed id' _ _ :: h | .denied id' :: h => if id' = id then none else pending id h
  | .enabled _ :: _ | .disabled :: _ => none
  | .shown .. :: h | .forgot _ :: h | .forgotAll :: h | .issued .. :: h | .sent .. :: h => pending id h

/-- Since the connection was enabled and the computer was last forgotten, a request with its key was allowed before
it expired, or the computer was in the list that was loaded. A list is saved only with a request that is allowed. -/
def Entitled (fingerprint : Bytes → Bytes) (computer : Bytes) : List Event → Prop
  | [] | .disabled :: _ | .forgotAll :: _ => False
  | .enabled trusted :: _ => computer ∈ trusted
  | .forgot other :: h => other ≠ computer ∧ Entitled fingerprint computer h
  | .allowed id _ now :: h =>
    (∃ key made, pending id h = some (key, made) ∧ fingerprint key = computer ∧ now < made + lifetime) ∨
      Entitled fingerprint computer h
  | .requested .. :: h | .shown .. :: h | .denied _ :: h | .issued .. :: h | .sent .. :: h =>
    Entitled fingerprint computer h

/-- What `RandomToken` returned, as an identifier or a token. -/
def Event.random : Event → Option Bytes
  | .requested id _ _ => some id
  | .issued token _ => some token
  | .enabled _ | .disabled | .shown .. | .allowed .. | .denied _ | .forgot _ | .forgotAll | .sent .. => none

def Unused (random : Bytes) (h : List Event) : Prop := random = [] ∨ ∀ e ∈ h, e.random ≠ some random

def Fresh (w : World) : Label → Prop
  | .connect _ _ _ _ random | .resolveConnection _ _ _ _ random _ => Unused random w.history
  | .forget .. | .forgetComputers .. | .takeConnectionRequest _ | .enable .. | .start | .stop | .disable => True

section

theorem token_pairResponse (p : Pair) :
    (answerOf (pairResponse p)).token = if p.allowed = true then some p.token else none := by
  cases hallowed : p.allowed with
  | true =>
    simp only [answerOf, Answer.token, pairResponse, hallowed, if_true]
    rfl
  | false =>
    simp only [answerOf, Answer.token, pairResponse, hallowed, Bool.false_eq_true, if_false]
    rfl

theorem token_allowedResponse (token : Bytes) : (answerOf (allowedResponse token)).token = some token := by
  simp only [answerOf, Answer.token, allowedResponse]
  rfl

end

inductive Connected (fingerprint : Bytes → Bytes) (s : Server) (key : Bytes) (later : Nat) (random : Bytes) :
    Option Bytes → Server → List Event → Prop
  | refused : Connected fingerprint s key later random none s []
  | session {token : Bytes} (h : (token, fingerprint key) ∈ s.sessions.entries) :
    Connected fingerprint s key later random (some token) s []
  | polled (hallowed : s.pair.allowed = true) (h : s.pair.fingerprint = fingerprint key) :
    Connected fingerprint s key later random (some s.pair.token) s []
  | expired (hallowed : s.pair.allowed = false) : Connected fingerprint s key later random none
      { s with pair := { s.pair with denied := true } } [.denied s.pair.id]
  | cleared : Connected fingerprint s key later random none
      { s with sessions := Server.makeRoom s.sessions } []
  | renewed (hrunning : s.running = true) (htrusted : (s.trusted.find (fingerprint key)).isSome)
      (hrandom : random ≠ []) : Connected fingerprint s key later random (some random)
      { s with sessions := (Server.makeRoom s.sessions).insert random (fingerprint key) }
      [.issued random (fingerprint key)]
  | requested (name : Bytes) : Connected fingerprint s key later random none
      { s with pair := { id := random, fingerprint := fingerprint key, name, expires := later + lifetime } }
      [.requested random key later]

section

variable {fingerprint : Bytes → Bytes} {s : Server} {body : Json} {key random : Bytes} {now later : Nat}

theorem poll_cases : Connected fingerprint s key later random (s.poll body (fingerprint key) now).answer.token
    (s.poll body (fingerprint key) now).server (s.poll body (fingerprint key) now).events := by
  unfold Server.poll
  dsimp only
  split_ifs with hid hexpired
  · exact .refused
  · rw [token_pairResponse, if_neg (by rw [hexpired.2]; decide)]
    exact .expired hexpired.2
  · simp only [Bool.or_eq_true, decide_eq_true_eq, not_or, not_not] at hid
    rw [token_pairResponse]
    split_ifs with hallowed
    · exact .polled hallowed hid.2
    · exact .refused

theorem renew_cases (hrunning : s.running = true) (htrusted : (s.trusted.find (fingerprint key)).isSome) :
    Connected fingerprint s key later random (s.renew (fingerprint key) random).answer.token
      (s.renew (fingerprint key) random).server (s.renew (fingerprint key) random).events := by
  unfold Server.renew
  split_ifs with hrandom
  · exact .cleared
  · rw [token_allowedResponse]
    exact .renewed hrunning htrusted hrandom

theorem request_cases :
    Connected fingerprint s key later random (s.request body key (fingerprint key) now later random).answer.token
      (s.request body key (fingerprint key) now later random).server
      (s.request body key (fingerprint key) now later random).events := by
  unfold Server.request
  dsimp only
  split_ifs with hname hvalid hwaiting hsame hrandom
  · exact .refused
  · exact .refused
  · rw [token_pairResponse, if_neg (by rw [hwaiting.2.2.1]; decide)]
    exact .refused
  · exact .refused
  · exact .requested _
  · rw [token_pairResponse]
    exact .requested _

theorem connect_cases (fingerprint : Bytes → Bytes) (s : Server) (body : Json) (polling : Bool) (now later : Nat)
    (random : Bytes) : Connected fingerprint s (body.get (ascii "key")).asString later random
      (s.connect fingerprint body polling now later random).answer.token
      (s.connect fingerprint body polling now later random).server
      (s.connect fingerprint body polling now later random).events := by
  unfold Server.connect
  dsimp only
  cases hfound : s.sessions.entries.find? fun e => e.2 = fingerprint (body.get (ascii "key")).asString with
  | some session =>
    have hmem := mem_of_find?_eq_some hfound
    have hprint : session.2 = fingerprint (body.get (ascii "key")).asString := by
      simpa using find?_some hfound
    dsimp only
    split_ifs with hvalid hoff hpoll
    · exact .refused
    · exact .refused
    · exact poll_cases
    · rw [token_allowedResponse]
      exact .session (hprint ▸ hmem)
  | none =>
    split_ifs with hvalid hoff hpoll htrusted
    · exact .refused
    · exact .refused
    · exact poll_cases
    · exact renew_cases (by simpa using hoff) htrusted
    · exact request_cases

end

def Admits (fingerprint : Bytes → Bytes) (h : List Event) : Event → Prop
  | .requested id _ _ => Unused id h
  | .issued token _ => ∀ e ∈ h, e.random ≠ some token
  | .allowed id computer _ => id ≠ [] → ∃ key made, .requested id key made ∈ h ∧ fingerprint key = computer
  | .shown id _ computer => id ≠ [] ∧ ∃ key made, .requested id key made ∈ h ∧ fingerprint key = computer
  | .sent token key => .issued token (fingerprint key) ∈ h
  | .enabled _ | .disabled | .denied _ | .forgot _ | .forgotAll => True

structure Recorded (fingerprint : Bytes → Bytes) (h : List Event) : Prop where
  requested : ∀ {id key key' made made'}, id ≠ [] → .requested id key made ∈ h → .requested id key' made' ∈ h → key = key'
  issued : ∀ {token computer other}, .issued token computer ∈ h → .issued token other ∈ h → computer = other
  allowed : ∀ {id computer now}, .allowed id computer now ∈ h → id ≠ [] →
    ∃ key made, .requested id key made ∈ h ∧ fingerprint key = computer
  shown : ∀ {id name computer}, .shown id name computer ∈ h →
    id ≠ [] ∧ ∃ key made, .requested id key made ∈ h ∧ fingerprint key = computer
  sent : ∀ {token key}, .sent token key ∈ h → .issued token (fingerprint key) ∈ h

section

variable {fingerprint : Bytes → Bytes} {h : List Event} {e : Event}

theorem Recorded.nil : Recorded fingerprint [] := by
  constructor <;> intros <;> contradiction

theorem requested_cons {id computer : Bytes} (h' : ∃ key made, .requested id key made ∈ h ∧ fingerprint key = computer) :
    ∃ key made, .requested id key made ∈ e :: h ∧ fingerprint key = computer := by
  obtain ⟨key, made, hmem, heq⟩ := h'
  exact ⟨key, made, mem_cons_of_mem e hmem, heq⟩

theorem Recorded.cons (hr : Recorded fingerprint h) (he : Admits fingerprint h e) : Recorded fingerprint (e :: h) := by
  have hunused {id key : Bytes} {made : Nat} (hid : id ≠ []) (hu : Unused id h) : .requested id key made ∉ h :=
    fun hmem => hu.resolve_left hid _ hmem rfl
  constructor
  · intro id key key' made made' hid hkey hkey'
    rcases mem_cons.mp hkey with rfl | hold
    · rcases mem_cons.mp hkey' with heq | hold'
      · cases heq
        rfl
      · exact absurd hold' (hunused hid he)
    · rcases mem_cons.mp hkey' with rfl | hold'
      · exact absurd hold (hunused hid he)
      · exact hr.requested hid hold hold'
  · intro token computer other hone htwo
    rcases mem_cons.mp hone with rfl | hold
    · rcases mem_cons.mp htwo with heq | hold'
      · cases heq
        rfl
      · exact (he _ hold' rfl).elim
    · rcases mem_cons.mp htwo with rfl | hold'
      · exact (he _ hold rfl).elim
      · exact hr.issued hold hold'
  · intro id computer now hmem hid
    rcases mem_cons.mp hmem with rfl | hmem
    · exact requested_cons (he hid)
    · exact requested_cons (hr.allowed hmem hid)
  · intro id name computer hmem
    rcases mem_cons.mp hmem with rfl | hmem
    · exact ⟨he.1, requested_cons he.2⟩
    · exact ⟨(hr.shown hmem).1, requested_cons (hr.shown hmem).2⟩
  · intro token key hmem
    rcases mem_cons.mp hmem with rfl | hmem
    · exact mem_cons_of_mem _ he
    · exact mem_cons_of_mem _ (hr.sent hmem)

end

/-- The state of the server and its history. `opened` holds while the connection is enabled. -/
structure Inv (fingerprint : Bytes → Bytes) (opened : Prop) (s : Server) (h : List Event) : Prop where
  recorded : Recorded fingerprint h
  requested : s.pair.id ≠ [] → ∃ key made, .requested s.pair.id key made ∈ h ∧ fingerprint key = s.pair.fingerprint
  issued : s.pair.allowed = true → .issued s.pair.token s.pair.fingerprint ∈ h
  waiting : s.pair.allowed = false → s.pair.denied = false → s.pair.expires ≠ 0 → ∃ key made,
    pending s.pair.id h = some (key, made) ∧ fingerprint key = s.pair.fingerprint ∧ s.pair.expires = made + lifetime
  sessions : ∀ e ∈ s.sessions.entries, .issued e.1 e.2 ∈ h ∧ Entitled fingerprint e.2 h
  bounded : s.sessions.entries.length ≤ 8
  running : s.running = true → opened
  trusted : opened → ∀ computer, (s.trusted.find computer).isSome → Entitled fingerprint computer h

section

variable {fingerprint : Bytes → Bytes} {opened : Prop} {s : Server} {h : List Event} {e : Event}

theorem Inv.note (hi : Inv fingerprint opened s h) (he : Admits fingerprint h e)
    (hpending : ∀ id, pending id (e :: h) = pending id h)
    (hentitled : ∀ computer, Entitled fingerprint computer h → Entitled fingerprint computer (e :: h)) :
    Inv fingerprint opened s (e :: h) where
  recorded := hi.recorded.cons he
  requested hid := requested_cons (hi.requested hid)
  issued hallowed := mem_cons_of_mem e (hi.issued hallowed)
  waiting := by
    rw [hpending]
    exact hi.waiting
  sessions d hd := ⟨mem_cons_of_mem e (hi.sessions d hd).1, hentitled _ (hi.sessions d hd).2⟩
  bounded := hi.bounded
  running := hi.running
  trusted hopen computer hfound := hentitled _ (hi.trusted hopen computer hfound)

variable {sessions : SortedMap Bytes Bytes}

theorem Inv.shrink (hi : Inv fingerprint opened s h)
    (hs : ∀ e ∈ sessions.entries, e ∈ s.sessions.entries) (hlen : sessions.entries.length ≤ 8) :
    Inv fingerprint opened { s with sessions } h :=
  { hi with sessions := fun e he => hi.sessions e (hs e he), bounded := hlen }

theorem mem_makeRoom {d : Bytes × Bytes} (hd : d ∈ (Server.makeRoom sessions).entries) : d ∈ sessions.entries := by
  unfold Server.makeRoom at hd
  split_ifs at hd
  · cases hd
  · exact hd

theorem length_makeRoom (sessions : SortedMap Bytes Bytes) : (Server.makeRoom sessions).entries.length < 8 := by
  unfold Server.makeRoom
  split_ifs with hfull
  · exact zero_lt_succ 7
  · exact Nat.lt_of_not_le hfull

theorem Inv.makeRoom (hi : Inv fingerprint opened s h) :
    Inv fingerprint opened { s with sessions := Server.makeRoom s.sessions } h :=
  hi.shrink (fun _ => mem_makeRoom) (length_makeRoom _).le

variable {computer : Bytes}

theorem Inv.issue (hi : Inv fingerprint opened s h) {token : Bytes} (htoken : ∀ e ∈ h, e.random ≠ some token)
    (hentitled : Entitled fingerprint computer h) (hlen : s.sessions.entries.length < 8) :
    Inv fingerprint opened { s with sessions := s.sessions.insert token computer } (.issued token computer :: h) := by
  have hnote := hi.note (e := .issued token computer) htoken (fun _ => rfl) fun _ => id
  refine { hnote with sessions := fun d hd => ?_, bounded := SortedMap.length_insertEntry_le.trans hlen }
  rcases SortedMap.mem_insertEntry hd with rfl | hd
  · exact ⟨mem_cons_self, hentitled⟩
  · exact hnote.sessions d hd

theorem Inv.deny (hi : Inv fingerprint opened s h) (hallowed : s.pair.allowed = false) (id token : Bytes) :
    Inv fingerprint opened { s with pair := { s.pair with denied := true, token } } (.denied id :: h) where
  recorded := hi.recorded.cons trivial
  requested hid := requested_cons (hi.requested hid)
  issued htrue := absurd htrue (by rw [hallowed]; decide)
  waiting _ := nofun
  sessions e he := ⟨mem_cons_of_mem _ (hi.sessions e he).1, (hi.sessions e he).2⟩
  bounded := hi.bounded
  running := hi.running
  trusted := hi.trusted

variable {random : Bytes}

theorem Inv.request (hi : Inv fingerprint opened s h) {key : Bytes} (hfresh : Unused random h) (name : Bytes)
    (later : Nat) : Inv fingerprint opened
      { s with pair := { id := random, fingerprint := fingerprint key, name, expires := later + lifetime } }
      (.requested random key later :: h) where
  recorded := hi.recorded.cons hfresh
  requested _ := ⟨key, later, mem_cons_self, rfl⟩
  issued := nofun
  waiting _ _ _ := ⟨key, later, if_pos rfl, rfl, rfl⟩
  sessions e he := ⟨mem_cons_of_mem _ (hi.sessions e he).1, (hi.sessions e he).2⟩
  bounded := hi.bounded
  running := hi.running
  trusted := hi.trusted

theorem Inv.connect (hi : Inv fingerprint opened s h) {key : Bytes} {later : Nat} (hfresh : Unused random h)
    {token : Option Bytes} {t : Server} {events : List Event}
    (hc : Connected fingerprint s key later random token t events) :
    Inv fingerprint opened t ((token.map fun token => Event.sent token key).toList ++ events ++ h) := by
  cases hc with
  | refused => exact hi
  | session hmem => exact hi.note (hi.sessions _ hmem).1 (fun _ => rfl) fun _ => id
  | polled hallowed hprint =>
    have hissued := hi.issued hallowed
    rw [hprint] at hissued
    exact hi.note hissued (fun _ => rfl) fun _ => id
  | expired hallowed => exact hi.deny hallowed _ _
  | cleared => exact hi.makeRoom
  | renewed hrunning htrusted hrandom =>
    have hissued := hi.makeRoom.issue (hfresh.resolve_left hrandom)
      (hi.trusted (hi.running hrunning) _ htrusted) (length_makeRoom _)
    exact hissued.note mem_cons_self (fun _ => rfl) fun _ => id
  | requested name => exact hi.request hfresh name later

theorem find_restored {trusted : Json} {owner : Bytes}
    (hfound : ((if (trusted.get owner).isNull = true then trusted.remove owner
      else (trusted.remove owner).set owner (trusted.get owner)).find computer).isSome) :
    (trusted.find computer).isSome := by
  by_cases heq : computer = owner
  · subst heq
    cases hold : trusted.find computer with
    | some value => rfl
    | none =>
      have hnull : trusted.get computer = .null := by rw [Json.get, hold, getD_none]
      have htrue : Json.null.isNull = true := rfl
      rwa [hnull, if_pos htrue, Json.find_remove_self] at hfound
  · split_ifs at hfound
    · rwa [Json.find_remove_of_ne heq] at hfound
    · rwa [Json.find_set_of_ne heq, Json.find_remove_of_ne heq] at hfound

section

variable (hi : Inv fingerprint opened s h)

include hi

theorem Inv.forget (owner : Bytes) (backup saves : Bool) :
    Inv fingerprint opened (s.forget owner backup saves).server ((s.forget owner backup saves).events ++ h) := by
  unfold Server.forget
  by_cases hbackup : backup = true
  · rw [if_pos hbackup]
    exact hi
  rw [if_neg hbackup]
  by_cases hfails : (s.rememberAvailable && !saves) = true
  · rw [if_pos hfails]
    exact { hi with trusted := fun hopen computer hfound => hi.trusted hopen computer (find_restored hfound) }
  rw [if_neg hfails]
  refine ⟨hi.recorded.cons trivial, fun hid => requested_cons (hi.requested hid),
    fun hallowed => mem_cons_of_mem _ (hi.issued hallowed), hi.waiting, fun e he => ?_,
    (length_filter_le _ _).trans hi.bounded, hi.running, fun hopen computer hfound => ?_⟩
  · obtain ⟨hmem, hkeep⟩ := mem_filter.mp he
    exact ⟨mem_cons_of_mem _ (hi.sessions e hmem).1, Ne.symm (of_decide_eq_true hkeep), (hi.sessions e hmem).2⟩
  · have hne : computer ≠ owner := by
      rintro rfl
      rw [Json.find_remove_self] at hfound
      cases hfound
    rw [Json.find_remove_of_ne hne] at hfound
    exact ⟨hne.symm, hi.trusted hopen computer hfound⟩

theorem Inv.forgetComputers (backup unlinks saves : Bool) :
    Inv fingerprint opened (s.forgetComputers backup unlinks saves).2.1
      ((s.forgetComputers backup unlinks saves).2.2 ++ h) := by
  unfold Server.forgetComputers
  split_ifs
  · exact hi
  · exact hi
  · exact hi
  · exact ⟨hi.recorded.cons trivial, fun hid => requested_cons (hi.requested hid),
      fun hallowed => mem_cons_of_mem _ (hi.issued hallowed), hi.waiting, nofun, zero_le _, hi.running, nofun⟩

theorem Inv.takeConnectionRequest (now : Nat) :
    Inv fingerprint opened (s.takeConnectionRequest now).2.1 ((s.takeConnectionRequest now).2.2 ++ h) := by
  unfold Server.takeConnectionRequest
  split_ifs with hnone
  · exact hi
  · simp only [Bool.or_eq_true, decide_eq_true_eq, not_or] at hnone
    have hid : s.pair.id ≠ [] := hnone.1.1.1.1.2
    have hnote := hi.note (e := .shown s.pair.id s.pair.name s.pair.fingerprint) ⟨hid, hi.requested hid⟩ (fun _ => rfl)
      fun _ => id
    exact { hnote with }

theorem Inv.allow (hrandom : ∀ e ∈ h, e.random ≠ some random)
    (hallowed : s.pair.allowed = false) (hdenied : s.pair.denied = false) {now : Nat} (hnow : now < s.pair.expires)
    {trusted : Json} (htrusted : ∀ computer, (trusted.find computer).isSome →
      computer = s.pair.fingerprint ∨ (s.trusted.find computer).isSome) : Inv fingerprint opened { s with
        trusted
        sessions := (Server.makeRoom s.sessions).insert random s.pair.fingerprint
        pair := { s.pair with token := random, allowed := true } }
      (.issued random s.pair.fingerprint :: .allowed s.pair.id s.pair.fingerprint now :: h) := by
  obtain ⟨key, made, hpending, hkey, hexpires⟩ := hi.waiting hallowed hdenied (ne_zero_of_lt hnow)
  have hentitled : Entitled fingerprint s.pair.fingerprint (.allowed s.pair.id s.pair.fingerprint now :: h) :=
    .inl ⟨key, made, hpending, hkey, hexpires ▸ hnow⟩
  have hrecorded : Recorded fingerprint (.allowed s.pair.id s.pair.fingerprint now :: h) := hi.recorded.cons hi.requested
  have hunused : ∀ e ∈ Event.allowed s.pair.id s.pair.fingerprint now :: h, e.random ≠ some random :=
    forall_mem_cons.mpr ⟨nofun, hrandom⟩
  refine ⟨hrecorded.cons hunused, fun hid => requested_cons (requested_cons (hi.requested hid)),
    fun _ => mem_cons_self, nofun, fun e he => ?_, SortedMap.length_insertEntry_le.trans (length_makeRoom _),
    hi.running, fun hopen computer hfound => ?_⟩
  · rcases SortedMap.mem_insertEntry he with rfl | he
    · exact ⟨mem_cons_self, hentitled⟩
    · obtain ⟨hmem, hold⟩ := hi.sessions e (mem_makeRoom he)
      exact ⟨mem_cons_of_mem _ (mem_cons_of_mem _ hmem), .inr hold⟩
  · rcases htrusted computer hfound with rfl | hold
    · exact hentitled
    · exact .inr (hi.trusted hopen computer hold)

end

theorem find_remember {saves : Bool} (hfound : ((s.remember saves).trusted.find computer).isSome) :
    computer = s.pair.fingerprint ∨ (s.trusted.find computer).isSome := by
  by_cases heq : computer = s.pair.fingerprint
  · exact .inl heq
  · unfold Server.remember at hfound
    split_ifs at hfound
    · rw [Json.find_set_of_ne heq] at hfound
      exact .inr hfound
    · rw [Json.find_remove_of_ne heq, Json.find_set_of_ne heq] at hfound
      exact .inr hfound

theorem Inv.resolveConnection (hi : Inv fingerprint opened s h) (hfresh : Unused random h) (id : Bytes)
    (allow remember : Bool) (now : Nat) (saves : Bool) :
    Inv fingerprint opened (s.resolveConnection id allow remember now random saves).1
      ((s.resolveConnection id allow remember now random saves).2 ++ h) := by
  unfold Server.resolveConnection
  by_cases hskip : (!s.running || s.pair.id ≠ id || s.pair.allowed || s.pair.denied) = true
  · rw [if_pos hskip]
    exact hi
  rw [if_neg hskip]
  simp only [Bool.or_eq_true, decide_eq_true_eq, not_or, not_not, Bool.not_eq_true] at hskip
  obtain ⟨⟨⟨-, hid⟩, hallowed⟩, hdenied⟩ := hskip
  by_cases hlate : (!allow || s.pair.expires ≤ now) = true
  · rw [if_pos hlate]
    exact hi.deny hallowed id s.pair.token
  rw [if_neg hlate]
  simp only [Bool.or_eq_true, decide_eq_true_eq, not_or, not_le] at hlate
  by_cases hrandom : random = []
  · rw [if_pos hrandom]
    exact hi.deny hallowed id []
  have hunused := hfresh.resolve_left hrandom
  dsimp only
  subst hid
  split_ifs with hremember
  · exact hi.allow hunused hallowed hdenied hlate.2 fun computer => find_remember
  · exact hi.allow hunused hallowed hdenied hlate.2 fun computer => .inr

theorem inv_enable (hr : Recorded fingerprint h) (persistent : Bool) (saved : Option Json) :
    Inv fingerprint opened (Server.enable persistent saved) (.enabled (Server.enable persistent saved).trusted.names :: h) := by
  refine ⟨hr.cons trivial, fun hid => absurd rfl hid, nofun, fun _ _ hne => absurd rfl hne, nofun, zero_le _, nofun,
    fun _ computer hfound => ?_⟩
  rw [Json.find, isSome_map, find?_isSome] at hfound
  obtain ⟨m, hm, heq⟩ := hfound
  exact mem_map.mpr ⟨m, hm, of_decide_eq_true heq⟩

theorem Inv.disable (hi : Inv fingerprint opened s h) (hoff : s.running = false) :
    Inv fingerprint False s.disable (.disabled :: h) :=
  ⟨hi.recorded.cons trivial, fun hid => absurd rfl hid, nofun, fun _ _ hne => absurd rfl hne, nofun, zero_le _,
    fun hrunning => absurd hrunning (by rw [Server.disable, hoff]; decide), nofun⟩

theorem Inv.running_iff (hi : Inv fingerprint opened s h) {p : Prop} (hp : opened ↔ p) : Inv fingerprint p s h :=
  { hi with running := fun hrunning => hp.mp (hi.running hrunning), trusted := fun hopen => hi.trusted (hp.mpr hopen) }

end

section

variable {fingerprint : Bytes → Bytes} {w u : World} {l : Label}

def World.opened (w : World) : Prop := w.server.running = true ∨ w.lifecycle = .starting

structure World.Inv (fingerprint : Bytes → Bytes) (w : World) : Prop where
  server : PcConnection.Inv fingerprint w.opened w.server w.history
  lifecycle : w.lifecycle ≠ .idle → w.server.running = false

theorem Connected.running {s t : Server} {key random : Bytes} {later : Nat} {token : Option Bytes} {events : List Event}
    (h : Connected fingerprint s key later random token t events) : t.running = s.running := by
  cases h <;> rfl

variable (s : Server)

theorem running_forget (owner : Bytes) (backup saves : Bool) :
    (s.forget owner backup saves).server.running = s.running := by
  simp only [Server.forget]
  split_ifs <;> rfl

theorem running_forgetComputers (backup unlinks saves : Bool) :
    (s.forgetComputers backup unlinks saves).2.1.running = s.running := by
  unfold Server.forgetComputers
  split_ifs <;> rfl

theorem running_takeConnectionRequest (now : Nat) :
    (s.takeConnectionRequest now).2.1.running = s.running := by
  simp only [Server.takeConnectionRequest]
  split_ifs <;> rfl

theorem running_resolveConnection (id : Bytes) (allow remember : Bool) (now : Nat) (random : Bytes)
    (saves : Bool) : (s.resolveConnection id allow remember now random saves).1.running = s.running := by
  simp only [Server.resolveConnection]
  split_ifs <;> rfl

theorem World.Inv.log (hw : w.Inv fingerprint) {server : Server} {events : List Event}
    (hi : PcConnection.Inv fingerprint w.opened server (events ++ w.history)) (hrunning : server.running = w.server.running) :
    (w.log server events).Inv fingerprint := by
  have hopened : w.opened ↔ (w.log server events).opened := by
    rw [World.opened, World.opened, World.log, hrunning]
  exact ⟨hi.running_iff hopened, fun hidle => hrunning.trans (hw.lifecycle hidle)⟩

theorem World.Inv.step (hw : w.Inv fingerprint) (hfresh : Fresh w l) (hstep : w.step fingerprint l = some u) :
    u.Inv fingerprint := by
  cases l with
  | connect body polling now later random =>
    cases hstep
    have hc := connect_cases fingerprint w.server body polling now later random
    exact hw.log (hw.server.connect hfresh hc) hc.running
  | forget owner backup saves =>
    cases hstep
    exact hw.log (hw.server.forget owner backup saves) (running_forget ..)
  | forgetComputers backup unlinks saves =>
    cases hstep
    exact hw.log (hw.server.forgetComputers backup unlinks saves) (running_forgetComputers ..)
  | takeConnectionRequest now =>
    cases hstep
    exact hw.log (hw.server.takeConnectionRequest now) (running_takeConnectionRequest ..)
  | resolveConnection id allow remember now random saves =>
    cases hstep
    exact hw.log (hw.server.resolveConnection hfresh id allow remember now saves) (running_resolveConnection ..)
  | enable fails persistent saved =>
    simp only [World.step] at hstep
    split_ifs at hstep
    · cases hstep
      exact hw
    · cases hstep
      exact ⟨inv_enable hw.server.recorded persistent saved, fun _ => rfl⟩
  | start =>
    simp only [World.step] at hstep
    split_ifs at hstep with hstarting
    cases hstep
    have hi := hw.server
    have hopen : w.opened := .inr hstarting
    exact ⟨{ hi with running := fun _ => .inl rfl, trusted := fun _ => hi.trusted hopen },
      fun hidle => absurd rfl hidle⟩
  | stop =>
    simp only [World.step] at hstep
    split_ifs at hstep with hidle hoff
    · cases hstep
      exact hw
    · cases hstep
      have hi := hw.server
      have hopen : w.opened := .inl (by simpa using hoff)
      exact ⟨{ hi with running := nofun, trusted := fun _ => hi.trusted hopen }, fun _ => rfl⟩
  | disable =>
    simp only [World.step] at hstep
    split_ifs at hstep with hstopping
    cases hstep
    have hoff : w.server.running = false := hw.lifecycle (by rw [hstopping]; decide)
    have hclosed : False ↔ World.opened { w.log w.server.disable [.disabled] with lifecycle := .idle } := by
      refine iff_of_false id fun hopen => ?_
      rcases hopen with hrunning | hstarting
      · exact absurd (hoff.symm.trans hrunning) (by decide)
      · cases hstarting
    exact ⟨(hw.server.disable hoff).running_iff hclosed, fun hidle => absurd rfl hidle⟩

structure World.Paired (fingerprint : Bytes → Bytes) (w : World) : Prop where
  accepted : ∀ authorization, w.server.sessionOwner authorization ≠ [] →
    Entitled fingerprint (w.server.sessionOwner authorization) w.history
  sessions : ∀ e ∈ w.server.sessions.entries, .issued e.1 e.2 ∈ w.history
  sent : ∀ token key computer, .sent token key ∈ w.history → .issued token computer ∈ w.history →
    fingerprint key = computer
  approved : ∀ id name shown computer now, .shown id name shown ∈ w.history → .allowed id computer now ∈ w.history →
    shown = computer ∧ ∀ key made, .requested id key made ∈ w.history → fingerprint key = computer
  bounded : w.server.sessions.entries.length ≤ 8

theorem inv_start : World.Inv fingerprint {} :=
  ⟨⟨.nil, fun hid => absurd rfl hid, nofun, fun _ _ hne => absurd rfl hne, nofun, zero_le _, nofun,
    fun hopen => by rcases hopen with h | h <;> cases h⟩, fun hidle => absurd rfl hidle⟩

theorem mem_of_sessionOwner {s : Server} {authorization : Bytes} (howner : s.sessionOwner authorization ≠ []) :
    (authorization.drop 7, s.sessionOwner authorization) ∈ s.sessions.entries := by
  unfold Server.sessionOwner at howner ⊢
  split_ifs at howner ⊢ with hbearer
  · exact absurd rfl howner
  · rw [SortedMap.find] at howner ⊢
    cases hfound : s.sessions.entries.find? fun e => e.1 = authorization.drop 7 with
    | none =>
      rw [hfound] at howner
      exact absurd rfl howner
    | some session =>
      have hkey : session.1 = authorization.drop 7 := by simpa using find?_some hfound
      rw [← hkey]
      exact mem_of_find?_eq_some hfound

theorem connect_paired (h : Steps.Reaches (World.step fingerprint) Fresh {} w) : w.Paired fingerprint := by
  have hw : w.Inv fingerprint := h.invariant (I := World.Inv fingerprint) inv_start fun _ _ _ hi hf hs => hi.step hf hs
  have hr := hw.server.recorded
  refine ⟨fun authorization howner => (hw.server.sessions _ (mem_of_sessionOwner howner)).2,
    fun e he => (hw.server.sessions e he).1, fun token key computer hsent hissued => hr.issued (hr.sent hsent) hissued,
    fun id name shown computer now hshown hallowed => ?_, hw.server.bounded⟩
  obtain ⟨hid, key, made, hkey, hprint⟩ := hr.shown hshown
  obtain ⟨key', made', hkey', hprint'⟩ := hr.allowed hallowed hid
  refine ⟨?_, fun other when hother => ?_⟩
  · rw [← hprint, ← hprint', hr.requested hid hkey hkey']
  · rw [← hprint', hr.requested hid hother hkey']

def sampleToken (digit : UInt8) : Bytes := replicate 64 digit

def sampleBody : Json := .object [(ascii "key", .string (sampleToken 97)), (ascii "name", .string (ascii "PC"))]

def samplePair : Pair :=
  { id := sampleToken 98, name := ascii "PC", fingerprint := sampleToken 97, expires := 5 + lifetime }

def askedWorld : World :=
  { server := { running := true, pair := samplePair }
    history := [.requested (sampleToken 98) (sampleToken 97) 5, .enabled []] }

theorem reaches_askedWorld : Steps.Reaches (World.step id) Fresh {} askedWorld := by
  have henable : World.step id {} (.enable false false none) =
      some { lifecycle := .starting, history := [.enabled []] } := rfl
  have hstart : World.step id { lifecycle := .starting, history := [.enabled []] } .start =
      some { server := { running := true }, history := [.enabled []] } := rfl
  have hconnect : World.step id { server := { running := true }, history := [.enabled []] }
      (.connect sampleBody false 5 5 (sampleToken 98)) = some askedWorld := rfl
  have hfresh : Fresh { server := { running := true }, history := [.enabled []] }
      (.connect sampleBody false 5 5 (sampleToken 98)) := .inr (by simp [Event.random])
  have hstarted : Steps.Reaches (World.step id) Fresh {} { server := { running := true }, history := [.enabled []] } :=
    .step (.step .refl (a := .enable false false none) trivial henable) (a := .start) trivial hstart
  exact hstarted.step hfresh hconnect

def allowedWorld : World :=
  { server :=
      { running := true
        sessions := SortedMap.empty.insert (sampleToken 99) (sampleToken 97)
        pair := { samplePair with token := sampleToken 99, allowed := true } }
    history := .issued (sampleToken 99) (sampleToken 97) :: .allowed (sampleToken 98) (sampleToken 97) 6 ::
      askedWorld.history }

theorem reaches_allowedWorld : Steps.Reaches (World.step id) Fresh {} allowedWorld := by
  have hfresh : Fresh askedWorld (.resolveConnection (sampleToken 98) true false 6 (sampleToken 99) false) := by
    have hne : sampleToken 98 ≠ sampleToken 99 := by decide
    refine .inr (forall_mem_cons.mpr ⟨fun heq => hne (some.inj heq), ?_⟩)
    simp [Event.random]
  exact reaches_askedWorld.step hfresh rfl

theorem connect_paired_sample :
    allowedWorld.server.sessionOwner (ascii "Bearer " ++ sampleToken 99) = sampleToken 97 ∧
      Entitled id (sampleToken 97) allowedWorld.history := by
  have howner : allowedWorld.server.sessionOwner (ascii "Bearer " ++ sampleToken 99) = sampleToken 97 := rfl
  have hentitled := (connect_paired reaches_allowedWorld).accepted (ascii "Bearer " ++ sampleToken 99)
  exact ⟨howner, hentitled (by decide)⟩

end

end AeraRecovery.PcConnection
