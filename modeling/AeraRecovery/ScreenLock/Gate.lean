import AeraRecovery.LockSecurity.Authority

namespace AeraRecovery.ScreenLock

open Lib LockSecurity

/-- The variables under the mutex `gate`. `child` is the number of the running helper; the counters have
64 bits in the source, and the runs are those in which they stay below that. Of the fingerprint only what decides about a grant is in the model. -/
structure Gate where
  generation : Nat := 0
  revision : Nat := 0
  active : Bool := false
  required : Bool := false
  granted : Bool := false
  child : Option Nat := none
  ready : Bool := false
  authenticated : Bool := false
  enabled : Bool := false
  serviceRequested : Bool := false
  started : Nat := 0
  spawned : Nat := 0
  retryAt : Nat := 0

namespace Gate

variable (g : Gate)

def closeChild : Gate := { g with child := none }

def stopFingerprint : Gate :=
  { g with enabled := false, serviceRequested := false, ready := false, authenticated := false }.closeChild

/-- The fields `configured` and `available` of `Inspect`. -/
def configured : Record → Bool
  | .none => false
  | _ => true

def available : Record → Bool
  | .damaged _ => false
  | _ => true

/-- `RecoveryBeginScreenLock` with the record that `Inspect` reads. `lit` is false for an ambient screen without
fingerprint. -/
def begin (r : Record) (lit : Bool) : Gate :=
  let g := { g.stopFingerprint with generation := g.generation + 1, active := true, granted := false }
  let g := { g with required := configured r || (!available r && g.required) }
  match r with
  | .valid c => if g.required && c.fingerprint then { g with enabled := lit, started := 0, retryAt := 0 }
    else g.stopFingerprint
  | _ => g.stopFingerprint

/-- `RecoveryEndScreenLock`. -/
def «end» (token : Nat) : Gate :=
  if !g.active || token ≠ g.generation then g
  else { g.stopFingerprint with active := false, granted := false, generation := g.generation + 1 }

/-- `RecoveryShutdownScreenFingerprint`. -/
def shutdown : Gate :=
  { g.stopFingerprint with active := false, granted := false, generation := g.generation + 1 }

/-- `RecoveryConsumeScreenUnlock`. -/
def consume (token : Nat) : Bool × Gate :=
  if !g.active || token ≠ g.generation || (g.required && !g.granted) then (false, g)
  else (true, { g.stopFingerprint with granted := false, active := false, generation := g.generation + 1 })

end Gate

inductive Change where
  | set
  | remove
  | setFingerprint
deriving DecidableEq

variable (g : Gate)

/-- What `RecoverySetScreenLock`, `RecoveryRemoveScreenLock` and `RecoverySetScreenFingerprint` do at the gate after
the store has reported success. -/
def Gate.changed (c : Change) : Gate :=
  let g := { g with revision := g.revision + 1, granted := false }
  match c with
  | .set => { g with required := g.required || g.active }.stopFingerprint
  | .remove => { g with required := false }.stopFingerprint
  | .setFingerprint => g.stopFingerprint

/-- A line of a helper: its `event`, where all errors are one and `other` also stands for a line that is not JSON. -/
inductive Event where
  | sensor
  | ready
  | authenticated
  | unavailable
  | error
  | rejected
  | other
deriving DecidableEq

def Gate.event (now : Nat) : Event → Gate × Bool
  | .authenticated =>
    if g.ready then ({ g with granted := true, authenticated := true, enabled := false }.closeChild, false) else (g, true)
  | .ready => ({ g with ready := true }, true)
  | .unavailable =>
    if !g.ready && now - g.started < 15000 then ({ g.closeChild with retryAt := now + 500 }, false)
    else ({ g with ready := false, enabled := false }.closeChild, false)
  | .error => ({ g with ready := false, enabled := false }.closeChild, false)
  | .sensor | .rejected | .other => (g, true)

def Gate.expire (now : Nat) : Gate :=
  if g.enabled && g.child.isSome && !g.ready && 7000 < now - g.spawned then { g.closeChild with enabled := false } else g

def Gate.reap (exited : Bool) : Gate :=
  if g.child.isSome && exited then
    (if g.authenticated then g else { g with ready := false, enabled := false }).closeChild
  else g

inductive Spawn where
  | blocked
  | failed
  | started

/-- What a poll finds: the properties, the clock at each look, the start of the helper, the lines that have arrived
(none if they are too long) and whether the helper has ended. -/
structure Poll where
  modules : Bool := true
  setProperty : Bool := true
  serviceAt : Nat := 0
  retryNow : Nat := 0
  spawn : Spawn := .started
  spawnAt : Nat := 0
  lines : Option (List Event) := some []
  eventNow : Nat := 0
  lateNow : Nat := 0
  exited : Bool := false

/-- What was observed of a lock session, without regard to the variables of the gate: the token of the last `Begin`,
the tokens that were consumed, whether a credential guards the session, and since the last change that has returned
the helpers that were started, those of them that have reported ready, and whether the user was recognised. -/
structure Monitor where
  token : Option Nat := none
  spent : List Nat := []
  guarded : Bool := false
  started : List Nat := []
  ready : List Nat := []
  proof : Bool := false

namespace Monitor

variable (m : Monitor)

def reset : Monitor := { m with started := [], ready := [], proof := false }

def begin (token : Nat) (configured : Bool) : Monitor :=
  { m.reset with token := some token, guarded := configured }

def changed (active : Bool) : Change → Monitor
  | .set => { m.reset with guarded := m.guarded || active }
  | .remove => { m.reset with guarded := false }
  | .setFingerprint => m.reset

/-- A secret that was given with this token matches the stored record, or does not. -/
def compared (token : Nat) (isMatch : Bool) : Monitor :=
  { m with proof := m.proof || (isMatch && m.token = some token) }

/-- A line of a helper that is read while fingerprint unlock is enabled in the record, or is not. -/
def reported (helper : Nat) (enabled : Bool) : Event → Monitor
  | .ready => if helper ∈ m.started then { m with ready := helper :: m.ready } else m
  | .authenticated => { m with proof := m.proof || (enabled && helper ∈ m.ready) }
  | _ => m

end Monitor

inductive Activity where
  | idle
  | changing (c : Change)
  | checking (token revision : Nat) (secret : Bytes)
  | checked (token revision : Nat) (ok : Bool)

structure World where
  store : Store
  gate : Gate := {}
  helpers : Nat := 0
  calls : Nat → Activity := fun _ => .idle
  monitor : Monitor := {}

inductive Label where
  | begin (reads : ReadFaults) (lit : Bool)
  | «end» (token : Nat)
  | shutdown
  | change (thread : Nat) (l : LockSecurity.Label)
  | finish (thread : Nat)
  | verify (thread token : Nat) (secret : Bytes)
  | check (thread : Nat) (now later : Nat) (reads : ReadFaults)
  | grant (thread : Nat)
  | consume (token : Nat)
  | poll (token : Nat) (p : Poll)

namespace World

variable (w : World)

def setCall (k : Nat) (a : Activity) : World := { w with calls := Function.update w.calls k a }

def fingerprint (w : World) : Bool := w.store.folder.stored.any (·.fingerprint)

def kind : Call → Option Change
  | .set .. => some .set
  | .remove .. => some .remove
  | .setFingerprint .. => some .setFingerprint
  | .verify .. => none

def request (p : Poll) : World × Bool :=
  if w.gate.serviceRequested then (w, true)
  else if !p.modules then (w, false)
  else if !p.setProperty then ({ w with gate := { w.gate with enabled := false } }, false)
  else
    let gate := { w.gate with serviceRequested := true, started := p.serviceAt, retryAt := p.serviceAt }
    ({ w with gate }, true)

def spawn (w : World) (p : Poll) : World :=
  if w.gate.child = none ∧ w.gate.retryAt ≤ p.retryNow then
    match p.spawn with
    | .blocked => w
    | .failed => { w with gate := { w.gate with enabled := false } }
    | .started =>
      { w with
        gate := { w.gate with child := some w.helpers, spawned := p.spawnAt }
        helpers := w.helpers + 1
        monitor := { w.monitor with started := w.helpers :: w.monitor.started } }
  else w

def events (helper now : Nat) : World → List Event → World
  | w, [] => w
  | w, e :: rest =>
    let (gate, more) := w.gate.event now e
    let w := { w with gate, monitor := w.monitor.reported helper w.fingerprint e }
    if more then events helper now w rest else w

def settle (p : Poll) : World := { w with gate := (w.gate.expire p.lateNow).reap p.exited }

/-- `RecoveryPollScreenFingerprint`. -/
def poll (token : Nat) (p : Poll) : World :=
  if !w.gate.active || token ≠ w.gate.generation || !w.gate.enabled then w
  else match w.request p with
    | (w, false) => w
    | (w, true) =>
      let w := w.spawn p
      match w.gate.child, p.lines with
      | some _, none => { w with gate := w.gate.stopFingerprint }
      | some helper, some lines => (events helper p.eventNow w lines).settle p
      | none, _ => w.settle p

def consume (w : World) (token : Nat) : Bool × World :=
  let (ok, gate) := w.gate.consume token
  (ok, { w with
    gate, monitor := if ok then { w.monitor with spent := token :: w.monitor.spent } else w.monitor })

/-- One atomic section of a call. The store has its own mutex, so its calls are atomic too. -/
def step (scrypt : Bytes → Key → Key) (w : World) : Label → Option World
  | .begin reads lit =>
    let r := read reads w.store.folder
    let gate := w.gate.begin r lit
    some { w with gate, monitor := w.monitor.begin gate.generation (Gate.configured r) }
  | .end token => some { w with gate := w.gate.end token }
  | .shutdown => some { w with gate := w.gate.shutdown }
  | .change k l =>
    match w.calls k, kind l.call with
    | .idle, some c =>
      match w.store.apply scrypt l with
      | (.ok _, store) => some ({ w with store }.setCall k (.changing c))
      | (.error _, store) => some { w with store }
    | _, _ => none
  | .finish k =>
    match w.calls k with
    | .changing c =>
      some ({ w with gate := w.gate.changed c, monitor := w.monitor.changed w.gate.active c }.setCall k .idle)
    | _ => none
  | .verify k token secret =>
    match w.calls k with
    | .idle =>
      if !w.gate.active || token ≠ w.gate.generation || !w.gate.required then some w
      else some (w.setCall k (.checking token w.gate.revision secret))
    | _ => none
  | .check k now later reads =>
    match w.calls k with
    | .checking token revision secret =>
      let (r, store) := w.store.verify scrypt now later reads secret
      let isMatch := w.store.folder.stored.any (·.matches scrypt secret)
      some ({ w with store, monitor := w.monitor.compared token isMatch }.setCall k (.checked token revision r.isOk))
    | _ => none
  | .grant k =>
    match w.calls k with
    | .checked token revision ok =>
      let current := w.gate.active && token = w.gate.generation && revision = w.gate.revision
      some ({ w with gate := { w.gate with granted := w.gate.granted || (current && ok) } }.setCall k .idle)
    | _ => none
  | .consume token => some (w.consume token).2
  | .poll token p => some (w.poll token p)

end World

end AeraRecovery.ScreenLock
