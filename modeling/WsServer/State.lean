import WsServer.Auth
import WsServer.IpLimiter
import WsServer.Topics

/-! The shared state (`state.rs`). `AppState` is the struct of the source; a topic channel and a
    client's mpsc channel are referred to by number, and `World` holds the channels themselves and the
    clock. `World` also keeps three history variables that no modelled function reads: every publish,
    every registration and every connection that took an id, each in order. A queued item carries
    where it came from for the same reason. -/

namespace WsServer

open Lib

/-- The registered sender of a client; `sender` is the connection whose mpsc channel it feeds. -/
structure ClientHandle where
  connectionId : UInt64
  sender : ℕ
  deriving DecidableEq

inductive OutboundMessage (E : Ext) where
  | binary (bytes : E.Bytes)
  | pong (payload : List UInt8)
  | close (code : ℕ) (reason : String)

structure AppState (E : Ext) where
  config : Config
  metrics : Metrics
  connectionLimit : Semaphore
  auth : Option (AuthVerifier E)
  ipLimiter : Option (IpLimiter E.F)
  tenantLimits : Option (Dict String Semaphore)
  tenantRateLimits : Option (Dict String (TokenBucket E.F))
  topics : Dict String ℕ
  clients : Dict (String × String) ClientHandle
  nextConnectionId : UInt64

namespace AppState

variable {E : Ext}

def new (E : Ext) (config : Config) : AppState E :=
  { config := config
    metrics := Metrics.zero
    connectionLimit := { free := config.maxConnections }
    auth := AuthVerifier.fromConfig config
    ipLimiter := IpLimiter.fromConfig config
    tenantLimits := config.tenantMaxConnections.map fun _ => ∅
    tenantRateLimits := config.tenantMaxMessagesPerSecond.map fun _ => ∅
    topics := ∅
    clients := ∅
    nextConnectionId := 1 }

/-- `none`: no tenant limits; `some (.ok ())`: a permit was taken; `some (.error ())`: cap reached.
    `Semaphore::new` panics above `maxPermits`, and the source rules such a cap out no more than such a
    `max_connections` in `new`; both are taken to be in range. -/
def acquireTenantPermit (tenantId : String) (app : AppState E) :
    Option (Except Unit Unit) × AppState E :=
  match app.tenantLimits, app.config.tenantMaxConnections with
  | some limits, some cap =>
    let sem := (limits.lookup tenantId).getD { free := cap }
    match sem.tryAcquire with
    | some sem' => (some (.ok ()), { app with tenantLimits := some (limits.insert tenantId sem') })
    | none => (some (.error ()), { app with tenantLimits := some (limits.insert tenantId sem) })
  | _, _ => (none, app)

/-- The drop of a tenant permit. -/
def releaseTenantPermit (tenantId : String) (app : AppState E) : AppState E :=
  match app.tenantLimits with
  | some limits =>
    match limits.lookup tenantId with
    | some sem => { app with tenantLimits := some (limits.insert tenantId sem.release) }
    | none => app
  | none => app

def checkTenantRate (now : ℕ) (tenantId : String) (app : AppState E) : Bool × AppState E :=
  match app.tenantRateLimits, app.config.tenantMaxMessagesPerSecond with
  | some limits, some r =>
    let rate : E.F := F64.ofU32 r
    let burst := (app.config.tenantMessageBurst.map F64.ofU32).getD (max rate 1)
    let bucket := (limits.lookup tenantId).getD (TokenBucket.new now rate burst)
    let (admitted, bucket) := bucket.tryConsume now
    (admitted, { app with tenantRateLimits := some (limits.insert tenantId bucket) })
  | _, _ => (true, app)

def registerClient (clientId tenantId : String) (handle : ClientHandle) (app : AppState E) :
    AppState E :=
  { app with clients := app.clients.insert (tenantId, clientId) handle }

/-- The guard of `unregister_client`: a `get` of its own. -/
def isRegistered (clientId tenantId : String) (connectionId : UInt64) (app : AppState E) : Bool :=
  match app.clients.lookup (tenantId, clientId) with
  | some handle => handle.connectionId = connectionId
  | none => false

/-- The `remove` of `unregister_client`. -/
def removeClient (clientId tenantId : String) (app : AppState E) : AppState E :=
  { app with clients := app.clients.erase (tenantId, clientId) }

/-- `unregister_client`, run without interruption. -/
def unregisterClient (clientId tenantId : String) (connectionId : UInt64) (app : AppState E) :
    AppState E :=
  if app.isRegistered clientId tenantId connectionId then app.removeClient clientId tenantId
  else app

end AppState

/-! ### The world -/

/-- Who published: a connection with the number of the frame, or an HTTP call. -/
inductive Origin where
  | ws (connection frame : ℕ)
  | http (call : ℕ)
  deriving DecidableEq

/-- One call of `publish`. -/
structure Publish (E : Ext) where
  key : String
  by_ : AuthIdentity
  origin : Origin
  encoded : E.Bytes

/-- A value in a topic channel with its number among all publishes. -/
structure Sent (E : Ext) where
  bytes : E.Bytes
  seq : ℕ

/-- A topic channel and the key it was made for. -/
structure Channel (E : Ext) where
  key : String
  chan : Broadcast (Sent E)

/-- Which code put an item into a client queue. -/
inductive Source where
  | ready
  | reply
  | pong
  | close
  | topic (seq : ℕ)
  | direct (sender : AuthIdentity)
  deriving DecidableEq

structure Item (E : Ext) where
  msg : OutboundMessage E
  source : Source

/-- Publish number and message of an item that came over a topic. -/
def Item.message? {E : Ext} (x : Item E) : Option (ℕ × OutboundMessage E) :=
  match x.source with
  | .topic seq => some (seq, x.msg)
  | _ => none

structure World (E : Ext) where
  app : AppState E
  now : ℕ
  queues : ℕ → Queue (Item E)
  channels : List (Channel E)
  published : List (Publish E)
  registrations : List ((String × String) × ClientHandle)
  takers : List ℕ

namespace World

variable {E : Ext}

def init (E : Ext) (config : Config) : World E :=
  { app := AppState.new E config, now := 0, queues := fun _ => Queue.absent, channels := [],
    published := [], registrations := [], takers := [] }

def withMetrics (w : World E) (f : Metrics → Metrics) : World E :=
  { w with app := { w.app with metrics := f w.app.metrics } }

def setQueue (w : World E) (i : ℕ) (q : Queue (Item E)) : World E :=
  { w with queues := Function.update w.queues i q }

/-- `try_send` on the client channel of connection `i`. -/
def trySend (w : World E) (i : ℕ) (x : Item E) : Bool × World E :=
  match (w.queues i).trySend x with
  | .ok q => (true, w.setQueue i q)
  | .error _ => (false, w)

/-- `send_encoded` -/
def sendEncoded (w : World E) (i : ℕ) (encoded : E.Bytes) (source : Source) : Bool × World E :=
  let r := w.trySend i ⟨.binary encoded, source⟩
  if r.1 then r else (false, r.2.withMetrics Metrics.messageDropped)

/-- `send_to_client` for a message of `sender`. -/
def sendToClient (w : World E) (clientId tenantId : String) (encoded : E.Bytes)
    (sender : AuthIdentity) : Bool × World E :=
  match w.app.clients.lookup (tenantId, clientId) with
  | some handle => w.trySend handle.sender ⟨.binary encoded, .direct sender⟩
  | none => (false, w)

/-- `topic_sender`: get or create the channel; `none` when `broadcast::channel` panics. -/
def topicSender (w : World E) (topicKey : String) : Option (ℕ × World E) :=
  match w.app.topics.lookup topicKey with
  | some ch => some (ch, w)
  | none =>
    let capacity := w.app.config.topicChannelCapacity
    if broadcastPanics E.slotSize capacity then none
    else
      let ch := w.channels.length
      some (ch,
        { w with
          app := { w.app with topics := w.app.topics.insert topicKey ch }
          channels := w.channels ++
            [{ key := topicKey, chan := Broadcast.new (Nat.nextPowerOfTwo capacity) }] })

/-- `sender.send(message).unwrap_or(0)` on channel `ch`. -/
def publish (w : World E) (ch : ℕ) (p : Publish E) : ℕ × World E :=
  let w' := { w with published := w.published ++ [p] }
  match w.channels[ch]? with
  | some c =>
    match c.chan.send ⟨p.encoded, w.published.length⟩ with
    | some (receivers, chan) =>
      (receivers, { w' with channels := w.channels.set ch { c with chan := chan } })
    | none => (0, w')
  | none => (0, w')

/-- Apply `f` to channel `ch`. -/
def onChannel (w : World E) (ch : ℕ) (f : Broadcast (Sent E) → Broadcast (Sent E)) : World E :=
  { w with channels := w.channels.modify ch fun c => { c with chan := f c.chan } }

end World

end WsServer
