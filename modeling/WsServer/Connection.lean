import WsServer.Handshake

/-! One connection after the upgrade: `handle_socket` and `connection_loop` (`server.rs`). The set-up
    runs in the order of the source and then spawns writer, fanout and reader, each a small machine of
    its own; the supervisor waits for the first of them to end, aborts the other two, and unregisters.
    An aborted task stops at an await point: the writer between or inside socket writes, the fanout in
    `recv`, the reader between frames. Until then it keeps running. The send of a reply, which
    `send_error` and `send_encoded` make after some local work, is a step of its own. -/

namespace WsServer

open Lib

variable {E : Ext}

namespace World

/-- The receiver of the client channel is dropped. -/
def closeQueue (w : World E) (i : ℕ) : World E := w.setQueue i (w.queues i).close

/-- The topic receiver of connection `i` is dropped. -/
def dropRx (w : World E) (i ch : ℕ) : World E := w.onChannel ch (·.dropRx i)

def takeConnectionId (w : World E) (i : ℕ) : World E :=
  { w with
    app := { w.app with nextConnectionId := w.app.nextConnectionId + 1 }
    takers := w.takers ++ [i] }

def registerClient (w : World E) (clientId tenantId : String) (handle : ClientHandle) : World E :=
  { w with
    app := w.app.registerClient clientId tenantId handle
    registrations := w.registrations ++ [((tenantId, clientId), handle)] }

end World

/-! ### Set-up -/

inductive SetupAct where
  | accept | openQueue | locate | subscribe | number | register | ready
  | spawnWriter | spawnFanout | spawnReader

namespace Setup

/-- `handle_socket` up to `connection_accepted`. -/
def accept (w : World E) (c : Session E) : World E × Session E :=
  (w.withMetrics Metrics.connectionAccepted,
    { c with
      stage := .accepted
      topicKey := tenantTopic c.identity.tenantId (normalizeTopic c.query.topic) })

def openQueue (w : World E) (i : ℕ) (c : Session E) : World E × Session E :=
  let capacity := w.app.config.clientQueueCapacity
  if mpscPanics capacity then (w, { c with stage := .panicked })
  else (w.setQueue i (Queue.new capacity), { c with stage := .opened })

/-- The first half of `subscribe`. -/
def locate (w : World E) (i : ℕ) (c : Session E) : World E × Session E :=
  match w.topicSender c.topicKey with
  | some (ch, w') => (w', { c with stage := .located, chan := ch })
  | none => (w.closeQueue i, { c with stage := .panicked })

def subscribe (w : World E) (i : ℕ) (c : Session E) : World E × Session E :=
  (w.onChannel c.chan (·.subscribe i),
    { c with stage := .subscribed, subMark := w.published.length })

def number (w : World E) (i : ℕ) (c : Session E) : World E × Session E :=
  (w.takeConnectionId i, { c with stage := .numbered, connectionId := w.app.nextConnectionId })

def register (w : World E) (i : ℕ) (c : Session E) : World E × Session E :=
  (w.registerClient c.identity.clientId c.identity.tenantId ⟨c.connectionId, i⟩,
    { c with stage := .registered })

/-- An event that cannot be encoded ends `connection_loop` here, past the unregistration. -/
def ready (w : World E) (i : ℕ) (c : Session E) : World E × Session E :=
  match encodeServerEvent (.ready (extractTopic c.topicKey) c.identity.clientId) with
  | some encoded => ((w.sendEncoded i encoded .ready).2, { c with stage := .readied })
  | none => ((w.dropRx i c.chan).closeQueue i, { c with stage := .returned false })

def step (w : World E) (i : ℕ) (c : Session E) : SetupAct → Option (World E × Session E)
  | .accept => if c.stage = .upgraded then some (accept w c) else none
  | .openQueue => if c.stage = .accepted then some (openQueue w i c) else none
  | .locate => if c.stage = .opened then some (locate w i c) else none
  | .subscribe => if c.stage = .located then some (subscribe w i c) else none
  | .number => if c.stage = .subscribed then some (number w i c) else none
  | .register => if c.stage = .numbered then some (register w i c) else none
  | .ready => if c.stage = .registered then some (ready w i c) else none
  | .spawnWriter =>
    if c.stage = .readied then
      some (w, { c with stage := .writerSpawned, writer := .spawned })
    else none
  | .spawnFanout =>
    if c.stage = .writerSpawned then
      some (w, { c with stage := .fanoutSpawned, fanout := .waiting })
    else none
  | .spawnReader =>
    if c.stage = .fanoutSpawned then some (w, { c with stage := .running, reader := .spawned })
    else none

end Setup

/-! ### The writer task -/

inductive WriterAct where
  | start
  | beat
  | pinged (succeeds : Bool)
  | pop
  | wrote (succeeds : Bool)

namespace Writer

/-- `interval` panics on a zero period; its first tick is immediate. -/
def start (w : World E) (i : ℕ) (c : Session E) : World E × Session E :=
  let period := w.app.config.heartbeatInterval
  if period = 0 then (w.closeQueue i, { c with writer := .failed })
  else (w, { c with writer := .idle, nextBeat := w.now + period })

def pinged (w : World E) (i : ℕ) (c : Session E) (succeeds : Bool) : World E × Session E :=
  if succeeds then (w, { c with writer := .idle })
  else (w.closeQueue i, { c with writer := .failed })

def wrote (w : World E) (i : ℕ) (c : Session E) (x : Item E) (succeeds : Bool) :
    World E × Session E :=
  if succeeds then
    (w.withMetrics Metrics.messageOut, { c with writer := .idle, written := c.written ++ [x] })
  else (w.closeQueue i, { c with writer := .failed })

/-- `connection_loop` keeps a sender until it returns, so `client_rx.recv()` never gives `None`. -/
def step (w : World E) (i : ℕ) (c : Session E) : WriterAct → Option (World E × Session E)
  | .start =>
    match c.writer with
    | .spawned => some (start w i c)
    | _ => none
  | .beat =>
    match c.writer with
    | .idle =>
      if c.nextBeat ≤ w.now then
        some (w, { c with
          writer := .pinging
          nextBeat := c.nextBeat + w.app.config.heartbeatInterval })
      else none
    | _ => none
  | .pinged succeeds =>
    match c.writer with
    | .pinging => some (pinged w i c succeeds)
    | _ => none
  | .pop =>
    match c.writer with
    | .idle => (w.queues i).recv.map fun r => (w.setQueue i r.2, { c with writer := .writing r.1 })
    | _ => none
  | .wrote succeeds =>
    match c.writer with
    | .writing x => some (wrote w i c x succeeds)
    | _ => none

end Writer

/-! ### The fanout task -/

inductive FanoutAct where
  | recv
  | forward

namespace Fanout

/-- `topic_rx.recv()`; the table keeps every topic sender, so it never reports `Closed`. -/
def recv (w : World E) (i : ℕ) (c : Session E) : Option (World E × Session E) :=
  match w.channels[c.chan]? with
  | none => none
  | some ch =>
    match ch.chan.recv i with
    | none => none
    | some (.ok m, b) =>
      some (w.onChannel c.chan fun _ => b,
        { c with fanout := .holding m, passed := c.passed ++ [(m.seq, true)] })
    | some (.lagged n, b) =>
      let skipped := ((ch.chan.pending i).getD []).take n
      some ((w.onChannel c.chan fun _ => b).withMetrics Metrics.messageDropped,
        { c with passed := c.passed ++ skipped.map fun m => (m.seq, false) })

def forward (w : World E) (i : ℕ) (c : Session E) (m : Sent E) : World E × Session E :=
  let r := w.sendEncoded i m.bytes (.topic m.seq)
  if r.1 then (r.2, { c with fanout := .waiting })
  else (r.2.dropRx i c.chan, { c with fanout := .stopped m })

def step (w : World E) (i : ℕ) (c : Session E) : FanoutAct → Option (World E × Session E)
  | .recv =>
    match c.fanout with
    | .waiting => recv w i c
    | _ => none
  | .forward =>
    match c.fanout with
    | .holding m => some (forward w i c m)
    | _ => none

end Fanout

/-! ### The reader task -/

/-- What `ws_receiver.next()` gives. -/
inductive Frame where
  | text (text : String)
  | binary (raw : List UInt8)
  | ping (payload : List UInt8)
  | pong
  | close
  | eof
  | failure

inductive ReaderAct where
  | start
  | frame (f : Frame)
  | tenantRate
  | locate
  | send
  | direct
  | reply
  | limitError
  | limitClose
  | idleTimeout

/-- The next round of the reader's loop: the idle timer starts anew. -/
def Session.nextRound (c : Session E) (now : ℕ) : Session E :=
  { c with reader := .idle, idleSince := now }

/-- `send_error`, up to the send. -/
def Session.sendError (c : Session E) (now : ℕ) (code message : String) : Session E :=
  match encodeServerEvent (.error code message) with
  | some encoded => { c with reader := .replying encoded }
  | none => c.nextRound now

/-- The place in the history of queue `i` that a send would take; `none` when it failed. -/
def World.placeOf (w : World E) (i : ℕ) (sent : Bool) : Option ℕ :=
  if sent then some (w.queues i).placed.length else none

namespace Reader

def start (w : World E) (c : Session E) : World E × Session E :=
  let config := w.app.config
  (w, { c.nextRound w.now with
    limiter := RateLimiter.new w.now config.maxMessagesPerSecond config.messageBurst })

/-- What both branches do with a frame first; only the text branch has a size to check. -/
def gate (w : World E) (c : Session E) (tooLarge : Bool) (frame : Inbound) : World E × Session E :=
  let w := w.withMetrics Metrics.messageIn
  let r := c.limiter.allow w.now
  let c := { c with limiter := r.2 }
  if !r.1 then (w.withMetrics Metrics.protocolError, { c with reader := .limited })
  else if tooLarge then
    (w.withMetrics Metrics.protocolError,
      c.sendError w.now "message_too_large" "text message exceeds configured limit")
  else (w, { c with reader := .checking frame })

def frame (w : World E) (i : ℕ) (c : Session E) : Frame → World E × Session E
  | .text text => gate w c (w.app.config.maxTextBytes < text.utf8ByteSize) (.text text)
  | .binary raw => gate w c false (.binary raw)
  | .ping payload => ((w.trySend i ⟨.pong payload, .pong⟩).2, c.nextRound w.now)
  | .pong => (w, c.nextRound w.now)
  | .close | .eof => (w, { c with reader := .ended .clientClosed })
  | .failure => (w, { c with reader := .ended .socketFailed })

/-- `handle_client_event` up to its first access to shared state. -/
def handleClientEvent (w : World E) (c : Session E) : ClientEvent E.Value → World E × Session E
  | .publish topic requestId payload =>
    let topicKey := (topic.map fun t => tenantTopic c.identity.tenantId (normalizeTopic t)).getD
      c.topicKey
    match encodeServerEvent
        (.message (extractTopic topicKey) c.identity.clientId requestId payload) with
    | some encoded => (w, { c with reader := .publishing topicKey encoded })
    | none =>
      (w.withMetrics Metrics.protocolError,
        c.sendError w.now "encode_failed" "failed to encode message")
  | .direct target requestId payload =>
    match encodeServerEvent (.directMessage c.identity.clientId target requestId payload) with
    | some encoded => (w, { c with reader := .directing target encoded })
    | none =>
      (w.withMetrics Metrics.protocolError,
        c.sendError w.now "encode_failed" "failed to encode direct message")
  | .ping requestId payload =>
    match encodeServerEvent (.pong requestId payload) with
    | some encoded => (w, { c with reader := .replying encoded })
    | none => (w, c.sendError w.now "encode_failed" "failed to encode pong")

/-- `handle_text` and `handle_binary` -/
def handle (w : World E) (c : Session E) : Inbound → World E × Session E
  | .text text =>
    match parseClientEventText text with
    | some event => handleClientEvent w c event
    | none =>
      (w.withMetrics Metrics.protocolError,
        c.sendError w.now "invalid_json" "message must match the websocket JSON protocol")
  | .binary raw =>
    match parseClientEventBinary raw with
    | some event => handleClientEvent w c event
    | none =>
      (w.withMetrics Metrics.protocolError,
        c.sendError w.now "invalid_msgpack"
          "binary message must match the websocket MessagePack protocol")

def tenantRate (w : World E) (c : Session E) (frame : Inbound) : World E × Session E :=
  let r := w.app.checkTenantRate w.now c.identity.tenantId
  let w := { w with app := r.2 }
  if !r.1 then
    (w.withMetrics Metrics.addTenantRateRejected,
      c.sendError w.now "tenant_rate_limited" "tenant message rate exceeded")
  else handle w c frame

/-- The first half of `publish`. -/
def locate (w : World E) (c : Session E) (topicKey : String) (encoded : E.Bytes) :
    World E × Session E :=
  match w.topicSender topicKey with
  | some (ch, w') => (w', { c with reader := .sending topicKey ch encoded })
  | none => (w, { c with reader := .ended .panicked })

/-- The second half of `publish`. -/
def send (w : World E) (i : ℕ) (c : Session E) (topicKey : String) (ch : ℕ) (encoded : E.Bytes) :
    World E × Session E :=
  let r := w.publish ch ⟨topicKey, c.identity, .ws i c.frames, encoded⟩
  (if r.1 = 0 then r.2.withMetrics Metrics.messageDropped else r.2, c.nextRound w.now)

def direct (w : World E) (c : Session E) (target : String) (encoded : E.Bytes) :
    World E × Session E :=
  let r := w.sendToClient target c.identity.tenantId encoded c.identity
  if !r.1 then
    (r.2.withMetrics Metrics.messageDropped,
      c.sendError w.now "client_not_found" "target client is not online")
  else (r.2, c.nextRound w.now)

def reply (w : World E) (i : ℕ) (c : Session E) (encoded : E.Bytes) : World E × Session E :=
  ((w.sendEncoded i encoded .reply).2, c.nextRound w.now)

def limitError (w : World E) (i : ℕ) (c : Session E) : World E × Session E :=
  match encodeServerEvent (.error "rate_limited" "message rate limit exceeded") with
  | some encoded =>
    let r := w.sendEncoded i encoded .reply
    (r.2, { c with reader := .limitedClose (w.placeOf i r.1) })
  | none => (w, { c with reader := .limitedClose none })

/-- `close_code::POLICY` is 1008. -/
def limitClose (w : World E) (i : ℕ) (c : Session E) (error : Option ℕ) : World E × Session E :=
  let r := w.trySend i ⟨.close 1008 "rate limit exceeded", .close⟩
  (r.2, { c with reader := .ended (.rateLimited error (w.placeOf i r.1)) })

/-- `close_code::NORMAL` is 1000. -/
def idleTimeout (w : World E) (i : ℕ) (c : Session E) : World E × Session E :=
  let r := w.trySend i ⟨.close 1000 "idle timeout", .close⟩
  (r.2, { c with reader := .ended (.idleTimeout (w.placeOf i r.1)) })

def step (w : World E) (i : ℕ) (c : Session E) : ReaderAct → Option (World E × Session E)
  | .start =>
    match c.reader with
    | .spawned => some (start w c)
    | _ => none
  | .frame f =>
    match c.reader with
    | .idle => some (frame w i { c with frames := c.frames + 1 } f)
    | _ => none
  | .tenantRate =>
    match c.reader with
    | .checking f => some (tenantRate w c f)
    | _ => none
  | .locate =>
    match c.reader with
    | .publishing topicKey encoded => some (locate w c topicKey encoded)
    | _ => none
  | .send =>
    match c.reader with
    | .sending topicKey ch encoded => some (send w i c topicKey ch encoded)
    | _ => none
  | .direct =>
    match c.reader with
    | .directing target encoded => some (direct w c target encoded)
    | _ => none
  | .reply =>
    match c.reader with
    | .replying encoded => some (reply w i c encoded)
    | _ => none
  | .limitError =>
    match c.reader with
    | .limited => some (limitError w i c)
    | _ => none
  | .limitClose =>
    match c.reader with
    | .limitedClose error => some (limitClose w i c error)
    | _ => none
  | .idleTimeout =>
    match c.reader with
    | .idle =>
      if c.idleSince + w.app.config.idleTimeout ≤ w.now then some (idleTimeout w i c) else none
    | _ => none

end Reader

/-! ### The supervisor -/

/-- The task has run to its end, by return or by panic. -/
def Session.hasEnded (c : Session E) : ConnectionTask → Bool
  | .reader => match c.reader with | .ended _ => true | _ => false
  | .writer => match c.writer with | .failed => true | _ => false
  | .fanout => match c.fanout with | .stopped _ => true | _ => false

def Session.isCancelled (c : Session E) : ConnectionTask → Bool
  | .reader => match c.reader with | .cancelled => true | _ => false
  | .writer => match c.writer with | .cancelled => true | _ => false
  | .fanout => match c.fanout with | .cancelled => true | _ => false

/-- The tasks that the supervisor aborts. -/
def ConnectionTask.others : ConnectionTask → List ConnectionTask
  | .reader => [.fanout, .writer]
  | .writer => [.reader, .fanout]
  | .fanout => [.reader, .writer]

inductive SuperviseAct where
  | select (t : ConnectionTask)
  | cancel (t : ConnectionTask)
  | join
  | unregisterGet
  | unregisterRemove
  | close

namespace Supervise

/-- An abort takes effect when the task is at an await point. -/
def cancel (w : World E) (i : ℕ) (c : Session E) : ConnectionTask → Option (World E × Session E)
  | .reader =>
    match c.reader with
    | .spawned | .idle => some (w, { c with reader := .cancelled })
    | _ => none
  | .writer =>
    match c.writer with
    | .spawned | .idle | .pinging | .writing _ =>
      some (w.closeQueue i, { c with writer := .cancelled })
    | _ => none
  | .fanout =>
    match c.fanout with
    | .waiting => some (w.dropRx i c.chan, { c with fanout := .cancelled })
    | _ => none

/-- The `remove` of `unregister_client`, if the `get` before it found the own entry. -/
def unregisterRemove (w : World E) (c : Session E) (own : Bool) : World E × Session E :=
  (if own then
    { w with app := w.app.removeClient c.identity.clientId c.identity.tenantId }
  else w, { c with stage := .returned true })

def step (w : World E) (i : ℕ) (c : Session E) : SuperviseAct → Option (World E × Session E)
  | .select t =>
    if c.stage = .running ∧ c.hasEnded t = true then some (w, { c with stage := .selected t })
    else none
  | .cancel t =>
    match c.stage with
    | .selected first => if t ∈ first.others then cancel w i c t else none
    | _ => none
  | .join =>
    match c.stage with
    | .selected first =>
      if first.others.all fun t => c.hasEnded t || c.isCancelled t then
        some (w, { c with stage := .joined })
      else none
    | _ => none
  | .unregisterGet =>
    if c.stage = .joined then
      some (w, { c with
        stage := .matched
          (w.app.isRegistered c.identity.clientId c.identity.tenantId c.connectionId) })
    else none
  | .unregisterRemove =>
    match c.stage with
    | .matched own => some (unregisterRemove w c own)
    | _ => none
  | .close =>
    match c.stage with
    | .returned unregistered =>
      some (w.withMetrics Metrics.connectionClosed, { c with stage := .closed unregistered })
    | _ => none

end Supervise

end WsServer
