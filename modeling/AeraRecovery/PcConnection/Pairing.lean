import AeraRecovery.Lib.Json
import AeraRecovery.Lib.SortedMap
import AeraRecovery.Lib.Steps

namespace AeraRecovery.PcConnection

open Lib Bytes

/-! `pc_connection.cpp`: how a computer gets a session. Each function is one section under `g_lock`; strings are bytes
and the time is in nanoseconds. `fingerprint` is the hexadecimal SHA-256 of a key. -/

def isToken (text : Bytes) : Bool :=
  text.length = 64 && text.all fun c => (48 ≤ c && c ≤ 57) || (97 ≤ c && c ≤ 102)

structure Pair where
  id : Bytes := []
  name : Bytes := []
  fingerprint : Bytes := []
  token : Bytes := []
  expires : Nat := 0
  shown : Bool := false
  allowed : Bool := false
  denied : Bool := false

structure Server where
  running : Bool := false
  rememberAvailable : Bool := false
  trusted : Json := .object []
  sessions : SortedMap Bytes Bytes := .empty
  pair : Pair := {}

inductive Answer
  | error (status : Nat) (text : String)
  | reply (status : Nat) (result : Json)

inductive Event
  | enabled (trusted : List Bytes)
  | disabled
  | requested (id key : Bytes) (made : Nat)
  | shown (id name fingerprint : Bytes)
  | allowed (id fingerprint : Bytes) (now : Nat)
  | denied (id : Bytes)
  | forgot (fingerprint : Bytes)
  | forgotAll
  | issued (token fingerprint : Bytes)
  | sent (token key : Bytes)

/-- The result of a request with the events of it, the last one first. -/
structure Outcome where
  answer : Answer
  server : Server
  events : List Event := []

def lifetime : Nat := 3 * 60 * 10 ^ 9

def Pair.state (p : Pair) : Bytes :=
  if p.denied then ascii "denied" else if p.allowed then ascii "allowed" else ascii "pending"

def pairResponse (p : Pair) : Json :=
  let result := (Json.null.set (ascii "request") (.string p.id)).set (ascii "state") (.string p.state)
  if p.allowed then result.set (ascii "token") (.string p.token) else result

def allowedResponse (token : Bytes) : Json :=
  (Json.null.set (ascii "state") (.string (ascii "allowed"))).set (ascii "token") (.string token)

def answerOf (result : Json) : Answer :=
  .reply (if (result.get (ascii "state")).asString = ascii "pending" then 202 else 200) result

def Answer.token : Answer → Option Bytes
  | .error .. => none
  | .reply _ result => (result.find (ascii "token")).map Json.asString

def validName (name : Bytes) : Bool := name ≠ [] && name.length ≤ 80 && !name.any fun c => c < 32 || c = 127

namespace Server

variable (s : Server)

def sessionOwner (authorization : Bytes) : Bytes :=
  if authorization.take 7 ≠ ascii "Bearer " then []
  else (s.sessions.find (authorization.drop 7)).getD []

/-- Of at most eight sessions: a ninth one ends all others. -/
def makeRoom (sessions : SortedMap Bytes Bytes) : SortedMap Bytes Bytes :=
  if 8 ≤ sessions.entries.length then .empty else sessions

/-- `Connect` that asks for the state of a request. -/
def poll (body : Json) (fingerprint : Bytes) (now : Nat) : Outcome :=
  let request := body.get (ascii "request")
  if !request.isString || s.pair.id ≠ request.asString || s.pair.fingerprint ≠ fingerprint then
    ⟨.error 403 "Connection request expired.", s, []⟩
  else if s.pair.expires < now ∧ s.pair.allowed = false then
    let pair := { s.pair with denied := true }
    ⟨answerOf (pairResponse pair), { s with pair }, [.denied pair.id]⟩
  else ⟨answerOf (pairResponse s.pair), s, []⟩

/-- `Connect` of a remembered computer. -/
def renew (fingerprint random : Bytes) : Outcome :=
  let sessions := makeRoom s.sessions
  if random = [] then ⟨.error 500 "Could not create a secure session.", { s with sessions }, []⟩
  else
    let sessions := sessions.insert random fingerprint
    ⟨answerOf (allowedResponse random), { s with sessions }, [.issued random fingerprint]⟩

/-- `Connect` of a computer that has to be allowed. -/
def request (s : Server) (body : Json) (key fingerprint : Bytes) (now later : Nat) (random : Bytes) : Outcome :=
  let name := body.get (ascii "name")
  if !name.isString then ⟨.error 400 "Computer name is required.", s, []⟩
  else if !validName name.asString then ⟨.error 400 "Invalid computer name.", s, []⟩
  else if s.pair.id ≠ [] ∧ s.pair.denied = false ∧ s.pair.allowed = false ∧ now < s.pair.expires then
    if s.pair.fingerprint = fingerprint then ⟨answerOf (pairResponse s.pair), s, []⟩
    else ⟨.error 409 "Another computer is waiting for approval.", s, []⟩
  else
    let pair := { id := random, fingerprint, name := name.asString, expires := later + lifetime }
    let events := [.requested random key later]
    if random = [] then ⟨.error 500 "Could not create a secure request.", { s with pair }, events⟩
    else ⟨answerOf (pairResponse pair), { s with pair }, events⟩

def connect (fingerprint : Bytes → Bytes) (s : Server) (body : Json) (polling : Bool) (now later : Nat)
    (random : Bytes) : Outcome :=
  let key := body.get (ascii "key")
  if !key.isString || !isToken key.asString then ⟨.error 400 "Invalid computer key.", s, []⟩
  else if !s.running then ⟨.error 409 "PC connection is off.", s, []⟩
  else
    let print := fingerprint key.asString
    if polling then s.poll body print now
    else match s.sessions.entries.find? (fun e => e.2 = print) with
      | some session => ⟨answerOf (allowedResponse session.1), s, []⟩
      | none =>
        if (s.trusted.find print).isSome then s.renew print random
        else s.request body key.asString print now later random

/-- The request `/api/forget` of a computer that had a session when the request came. -/
def forget (owner : Bytes) (backup saves : Bool) : Outcome :=
  if backup then ⟨.error 409 "Finish the backup operation before forgetting this browser.", s, []⟩
  else
    let removed := s.trusted.get owner
    let trusted := s.trusted.remove owner
    if s.rememberAvailable && !saves then
      let trusted := if removed.isNull then trusted else trusted.set owner removed
      ⟨.error 409 "Could not update remembered computers.", { s with trusted }, []⟩
    else
      let sessions := s.sessions.filter fun e => e.2 ≠ owner
      ⟨.reply 200 (Json.null.set (ascii "forgotten") (.bool true)), { s with trusted, sessions }, [.forgot owner]⟩

def forgetComputers (backup unlinks saves : Bool) : Bool × Server × List Event :=
  if backup then (false, s, [])
  else if !s.rememberAvailable && !unlinks then (false, s, [])
  else if s.rememberAvailable && !saves then (false, s, [])
  else (true, { s with trusted := .object [], sessions := .empty }, [.forgotAll])

def takeConnectionRequest (now : Nat) : Bool × Server × List Event :=
  if !s.running || s.pair.id = [] || s.pair.shown || s.pair.allowed || s.pair.denied || s.pair.expires ≤ now then
    (false, s, [])
  else
    let pair := { s.pair with shown := true }
    (true, { s with pair }, [.shown pair.id pair.name pair.fingerprint])

/-- `ResolveConnection` up to the session: the computer is remembered if the list could be saved. -/
def remember (saves : Bool) : Server :=
  let trusted := s.trusted.set s.pair.fingerprint (.string s.pair.name)
  { s with trusted := if saves then trusted else trusted.remove s.pair.fingerprint }

def resolveConnection (id : Bytes) (allow remember : Bool) (now : Nat) (random : Bytes) (saves : Bool) :
    Server × List Event :=
  if !s.running || s.pair.id ≠ id || s.pair.allowed || s.pair.denied then (s, [])
  else if !allow || s.pair.expires ≤ now then ({ s with pair := { s.pair with denied := true } }, [.denied id])
  else if random = [] then ({ s with pair := { s.pair with token := [], denied := true } }, [.denied id])
  else
    let s := { s with pair := { s.pair with token := random } }
    let s := if remember && s.rememberAvailable then s.remember saves else s
    let sessions := (makeRoom s.sessions).insert random s.pair.fingerprint
    let pair := { s.pair with allowed := true }
    ({ s with sessions, pair }, [.issued random pair.fingerprint, .allowed id pair.fingerprint now])

def loadTrusted (saved : Json) : Json :=
  saved.members.foldl (fun trusted m =>
    if isToken m.1 && m.2.isString && m.2.asString.length ≤ 80 then trusted.set m.1 m.2 else trusted) (.object [])

/-- `SetEnabled(true)`, before the threads start. -/
def enable (persistent : Bool) (saved : Option Json) : Server :=
  { rememberAvailable := persistent
    trusted := if persistent then (saved.map loadTrusted).getD (.object []) else .object [] }

/-- The last section of `SetEnabled(false)`. -/
def disable : Server := { s with pair := {}, sessions := .empty }

end Server

/-- Where the call of `SetEnabled` is that holds `g_lifecycle`. -/
inductive Lifecycle
  | idle
  | starting
  | stopping
  deriving DecidableEq

structure World where
  server : Server := {}
  lifecycle : Lifecycle := .idle
  history : List Event := []

inductive Label
  | connect (body : Json) (polling : Bool) (now later : Nat) (random : Bytes)
  | forget (owner : Bytes) (backup saves : Bool)
  | forgetComputers (backup unlinks saves : Bool)
  | takeConnectionRequest (now : Nat)
  | resolveConnection (id : Bytes) (allow remember : Bool) (now : Nat) (random : Bytes) (saves : Bool)
  | enable (fails persistent : Bool) (saved : Option Json)
  | start
  | stop
  | disable

namespace World

def log (w : World) (server : Server) (events : List Event) : World :=
  { w with server, history := events ++ w.history }

def step (fingerprint : Bytes → Bytes) (w : World) : Label → Option World
  | .connect body polling now later random =>
    let o := w.server.connect fingerprint body polling now later random
    let key := (body.get (ascii "key")).asString
    some (w.log o.server ((o.answer.token.map fun token => Event.sent token key).toList ++ o.events))
  | .forget owner backup saves =>
    let o := w.server.forget owner backup saves
    some (w.log o.server o.events)
  | .forgetComputers backup unlinks saves =>
    let (_, server, events) := w.server.forgetComputers backup unlinks saves
    some (w.log server events)
  | .takeConnectionRequest now =>
    let (_, server, events) := w.server.takeConnectionRequest now
    some (w.log server events)
  | .resolveConnection id allow remember now random saves =>
    let (server, events) := w.server.resolveConnection id allow remember now random saves
    some (w.log server events)
  | .enable fails persistent saved =>
    if w.lifecycle ≠ .idle then none
    else if w.server.running || fails then some w
    else
      let server := Server.enable persistent saved
      some { w.log server [.enabled server.trusted.names] with lifecycle := .starting }
  | .start =>
    if w.lifecycle = .starting then some { w with server := { w.server with running := true }, lifecycle := .idle }
    else none
  | .stop =>
    if w.lifecycle ≠ .idle then none
    else if !w.server.running then some w
    else some { w with server := { w.server with running := false }, lifecycle := .stopping }
  | .disable =>
    if w.lifecycle = .stopping then some { w.log w.server.disable [.disabled] with lifecycle := .idle } else none

end World

end AeraRecovery.PcConnection
