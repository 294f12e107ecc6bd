import Mathlib.Data.List.Perm.Basic
import WsServer.State

/-! One WebSocket request from its arrival on: the state of a `Session`, and the steps of `ws_handler`
    (`server.rs`) up to the upgrade, with the drops of the three permits wherever a handshake or a
    connection ends. A step is one access to shared state together with the local computation around
    it, so that other requests run between any two of them. -/

namespace WsServer

open Lib

/-- The query string of `/ws`; a missing topic is already `public`. -/
structure WsQuery where
  topic : String
  clientId : Option String
  tenantId : Option String
  token : Option String

/-- Why a handshake was refused. -/
inductive Refusal where
  | ip (reason : IpRejection)
  | full
  | invalidToken
  | missingToken
  | tenant
  deriving DecidableEq

/-- Status and body of the answer. -/
def Refusal.response : Refusal → ℕ × String
  | .ip .rateLimited => (429, "ip connection rate limit exceeded\n")
  | .ip .concurrencyLimited => (429, "ip concurrent connection limit exceeded\n")
  | .full => (503, "connection limit reached\n")
  | .invalidToken => (401, "invalid token\n")
  | .missingToken => (401, "missing token\n")
  | .tenant => (429, "tenant connection limit exceeded\n")

/-- The task that ended first. -/
inductive ConnectionTask where | reader | writer | fanout
  deriving DecidableEq

/-- How far a request has come: `ws_handler`, then `handle_socket` and `connection_loop`. The flag of
    the last two says whether `unregister_client` has run. -/
inductive Stage where
  | arrived | ipAdmitted | permitted | authenticated | admitted
  | refusing (r : Refusal) | counted (r : Refusal) | refused (r : Refusal) | upgradeFailed
  | upgraded | accepted | opened | located | subscribed | numbered | registered | readied
  | writerSpawned | fanoutSpawned | running
  | selected (t : ConnectionTask) | joined | matched (own : Bool)
  | returned (unregistered : Bool) | closed (unregistered : Bool) | panicked
  deriving DecidableEq

/-- Nothing is left to run but the drop of the permits. -/
def Stage.isOver : Stage → Bool
  | .refused _ | .upgradeFailed | .closed _ | .panicked => true
  | _ => false

inductive WriterPc (E : Ext) where
  | off | spawned | idle | pinging | failed | cancelled
  | writing (x : Item E)

inductive FanoutPc (E : Ext) where
  | off | waiting | cancelled
  | holding (m : Sent E)
  | stopped (unfit : Sent E)

/-- A frame that passed the per-connection checks. -/
inductive Inbound where
  | text (text : String)
  | binary (raw : List UInt8)

/-- How the reader ended; the numbers are the places in the queue's history of what it left there. -/
inductive ReaderEnd where
  | rateLimited (error close : Option ℕ)
  | idleTimeout (close : Option ℕ)
  | clientClosed
  | socketFailed
  | panicked

inductive ReaderPc (E : Ext) where
  | off | spawned | idle | cancelled
  | checking (frame : Inbound)
  | publishing (topicKey : String) (encoded : E.Bytes)
  | sending (topicKey : String) (ch : ℕ) (encoded : E.Bytes)
  | directing (target : String) (encoded : E.Bytes)
  | replying (encoded : E.Bytes)
  | limited
  | limitedClose (error : Option ℕ)
  | ended (how : ReaderEnd)

structure RateLimiter (F : Type) where
  capacity : F
  tokens : F
  refillPerSecond : F
  lastRefill : ℕ

namespace RateLimiter

variable {F : Type} [F64 F]

def new (now : ℕ) (refillPerSecond burst : UInt32) : RateLimiter F :=
  let capacity := F64.ofU32 (max burst 1)
  { capacity := capacity, tokens := capacity,
    refillPerSecond := F64.ofU32 (max refillPerSecond 1), lastRefill := now }

def tokensToAdd (elapsed : ℕ) (refillPerSecond : F) : F := F64.asSecs elapsed * refillPerSecond

def refill (now : ℕ) (l : RateLimiter F) : RateLimiter F :=
  let elapsed := now - l.lastRefill
  { l with
    lastRefill := now
    tokens := min (l.tokens + tokensToAdd elapsed l.refillPerSecond) l.capacity }

def allow (now : ℕ) (l : RateLimiter F) : Bool × RateLimiter F :=
  let l := l.refill now
  if 1 ≤ l.tokens then (true, { l with tokens := l.tokens - 1 }) else (false, l)

end RateLimiter

/-- A WebSocket request: its inputs, the permits it holds, the locals of `connection_loop` and of its
    three tasks. The last four fields are history: frames read, items written to the socket, the
    number of publishes before `subscribe` returned, and what `recv` passed over, with `true` for a
    value received and `false` for one skipped as lagged. -/
structure Session (E : Ext) where
  ip : IpAddr
  query : WsQuery
  stage : Stage
  identity : AuthIdentity
  ipPermit : Bool
  permit : Bool
  tenantPermit : Bool
  topicKey : String
  chan : ℕ
  connectionId : UInt64
  writer : WriterPc E
  fanout : FanoutPc E
  reader : ReaderPc E
  nextBeat : ℕ
  limiter : RateLimiter E.F
  idleSince : ℕ
  frames : ℕ
  written : List (Item E)
  subMark : ℕ
  passed : List (ℕ × Bool)

variable {E : Ext}

/-- A request that just arrived. -/
def Session.arrive (ip : IpAddr) (query : WsQuery) : Session E :=
  { ip := ip, query := query, stage := .arrived, identity := ⟨"", ""⟩, ipPermit := false,
    permit := false, tenantPermit := false, topicKey := "", chan := 0, connectionId := 0,
    writer := .off, fanout := .off, reader := .off, nextBeat := 0,
    limiter := RateLimiter.new 0 0 0, idleSince := 0, frames := 0, written := [],
    subMark := 0, passed := [] }

/-- The identity of a handshake. -/
def wsIdentity (auth : Option (AuthVerifier E)) (now : ℕ) (query : WsQuery) :
    Except Refusal AuthIdentity :=
  match auth with
  | some verifier =>
    match query.token with
    | some token =>
      match verifier.verify now token with
      | .ok identity => .ok identity
      | .error _ => .error .invalidToken
    | none => .error .missingToken
  | none =>
    .ok { clientId := query.clientId.getD "anonymous", tenantId := query.tenantId.getD "default" }

inductive HandshakeAct where
  | ipAdmission (order : List IpAddr)
  | globalPermit
  | authenticate
  | tenantPermit
  | upgrade (succeeds : Bool)
  | countKind
  | countRejected
  | dropIp
  | dropGlobal
  | dropTenant

namespace Handshake

/-- IP admission; the table is scanned in the given order. -/
def ipAdmission (order : List IpAddr) (w : World E) (c : Session E) :
    Option (World E × Session E) :=
  match w.app.ipLimiter with
  | none => some (w, { c with stage := .ipAdmitted })
  | some limiter =>
    if order.isPerm limiter.states.keys then
      let w' (lim : IpLimiter E.F) := { w with app := { w.app with ipLimiter := some lim } }
      match limiter.tryAcquire w.now order c.ip with
      | (.ok (), limiter) => some (w' limiter, { c with stage := .ipAdmitted, ipPermit := true })
      | (.error reason, limiter) => some (w' limiter, { c with stage := .refusing (.ip reason) })
    else none

def globalPermit (w : World E) (c : Session E) : World E × Session E :=
  match w.app.connectionLimit.tryAcquire with
  | some sem =>
    ({ w with app := { w.app with connectionLimit := sem } },
      { c with stage := .permitted, permit := true })
  | none => (w, { c with stage := .counted .full })

def authenticate (w : World E) (c : Session E) : World E × Session E :=
  match wsIdentity w.app.auth w.now c.query with
  | .ok identity => (w, { c with stage := .authenticated, identity := identity })
  | .error refusal => (w, { c with stage := .refusing refusal })

def tenantPermit (w : World E) (c : Session E) : World E × Session E :=
  match w.app.acquireTenantPermit c.identity.tenantId with
  | (none, app) => ({ w with app := app }, { c with stage := .admitted })
  | (some (.ok ()), app) =>
    ({ w with app := app }, { c with stage := .admitted, tenantPermit := true })
  | (some (.error ()), app) => ({ w with app := app }, { c with stage := .refusing .tenant })

/-- The counter of a kind of refusal. -/
def countKind (r : Refusal) : Metrics → Metrics :=
  match r with
  | .ip _ => Metrics.addIpRejected
  | .full => id
  | .invalidToken | .missingToken => Metrics.addAuthRejected
  | .tenant => Metrics.addTenantRejected

def dropIp (w : World E) (c : Session E) : World E × Session E :=
  ({ w with app := { w.app with ipLimiter := w.app.ipLimiter.map (·.release w.now c.ip) } },
    { c with ipPermit := false })

def dropGlobal (w : World E) (c : Session E) : World E × Session E :=
  ({ w with app := { w.app with connectionLimit := w.app.connectionLimit.release } },
    { c with permit := false })

def dropTenant (w : World E) (c : Session E) : World E × Session E :=
  ({ w with app := w.app.releaseTenantPermit c.identity.tenantId },
    { c with tenantPermit := false })

/-- One step of `ws_handler`, or the drop of one permit. -/
def step (w : World E) (c : Session E) : HandshakeAct → Option (World E × Session E)
  | .ipAdmission order => if c.stage = .arrived then ipAdmission order w c else none
  | .globalPermit => if c.stage = .ipAdmitted then some (globalPermit w c) else none
  | .authenticate => if c.stage = .permitted then some (authenticate w c) else none
  | .tenantPermit => if c.stage = .authenticated then some (tenantPermit w c) else none
  | .upgrade succeeds =>
    if c.stage = .admitted then
      some (w, { c with stage := if succeeds then .upgraded else .upgradeFailed })
    else none
  | .countKind =>
    match c.stage with
    | .refusing r => some (w.withMetrics (countKind r), { c with stage := .counted r })
    | _ => none
  | .countRejected =>
    match c.stage with
    | .counted r =>
      some (w.withMetrics Metrics.connectionRejected, { c with stage := .refused r })
    | _ => none
  | .dropIp => if c.stage.isOver && c.ipPermit then some (dropIp w c) else none
  | .dropGlobal => if c.stage.isOver && c.permit then some (dropGlobal w c) else none
  | .dropTenant => if c.stage.isOver && c.tenantPermit then some (dropTenant w c) else none

end Handshake

end WsServer
