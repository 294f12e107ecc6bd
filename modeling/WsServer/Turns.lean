import WsServer.Frames

/-! What a task has in hand. Between the encoding of an event and the send a task holds the bytes alone.
    `Writes` says which events a task may turn into bytes; `Turn` and `CallTurn` say once what a step of
    the reader or of a call leaves in hand, so that facts about bytes in hand are read off them. -/

namespace WsServer

open Lib

variable {E : Ext} {w : World E} {i : ℕ} {c : Session E} {r : World E × Session E}

/-- Bytes that a task is about to send. -/
inductive Hand (E : Ext) where
  | publish (topicKey : String) (encoded : E.Bytes)
  | direct (target : String) (encoded : E.Bytes)
  | reply (encoded : E.Bytes)

def ReaderPc.hand : ReaderPc E → Option (Hand E)
  | .publishing topicKey encoded | .sending topicKey _ encoded => some (.publish topicKey encoded)
  | .directing target encoded => some (.direct target encoded)
  | .replying encoded => some (.reply encoded)
  | _ => none

def CallPc.hand : CallPc E → Option (Hand E)
  | .publishing topicKey encoded | .sending topicKey _ encoded => some (.publish topicKey encoded)
  | .directing target encoded => some (.direct target encoded)
  | _ => none

/-- The reader with freshly written bytes. -/
def Hand.readerPc : Hand E → ReaderPc E
  | .publish topicKey encoded => .publishing topicKey encoded
  | .direct target encoded => .directing target encoded
  | .reply encoded => .replying encoded

@[simp] theorem hand_readerPc (hand : Hand E) : hand.readerPc.hand = some hand := by
  cases hand <;> rfl

/-- The key of a publish: that of the topic in the frame, or that of the connection. -/
def Session.keyOf (c : Session E) (topic : Option String) : String :=
  (topic.map fun t => tenantTopic c.identity.tenantId (normalizeTopic t)).getD c.topicKey

/-- The events that a reader writes. -/
inductive Session.Writes (c : Session E) : Hand E → Prop
  | publish (topic requestId : Option String) (payload : E.Value) {encoded : E.Bytes}
      (h : encodeServerEvent (.message (extractTopic (c.keyOf topic)) c.identity.clientId requestId
        payload) = some encoded) : Writes c (.publish (c.keyOf topic) encoded)
  | direct (target : String) (requestId : Option String) (payload : E.Value) {encoded : E.Bytes}
      (h : encodeServerEvent (.directMessage c.identity.clientId target requestId payload) =
        some encoded) : Writes c (.direct target encoded)
  | pong (requestId : Option String) (payload : Option E.Value) {encoded : E.Bytes}
      (h : encodeServerEvent (.pong requestId payload) = some encoded) : Writes c (.reply encoded)
  | error (code message : String) {encoded : E.Bytes}
      (h : encodeServerEvent (E := E) (.error code message) = some encoded) :
      Writes c (.reply encoded)

/-- The events that a call writes. -/
inductive Call.Writes (d : Call E) : Hand E → Prop
  | publish (body : PublishBody E.Value) {encoded : E.Bytes} (hb : d.request = .publish body)
      (h : encodeServerEvent (.message (body.topic.getD "public") d.identity.clientId body.requestId
        body.payload) = some encoded) :
      Writes d (.publish
        (tenantTopic d.identity.tenantId (normalizeTopic (body.topic.getD "public"))) encoded)
  | direct (body : DirectBody E.Value) {encoded : E.Bytes} (hb : d.request = .direct body)
      (h : encodeServerEvent (.directMessage d.identity.clientId body.target body.requestId
        body.payload) = some encoded) : Writes d (.direct body.target encoded)

/-- What a reader writes depends on who it is for and where it subscribed. -/
theorem Session.Writes.congr {c' : Session E} {hand : Hand E} (h : c.Writes hand)
    (hid : c'.identity = c.identity) (hkey : c'.topicKey = c.topicKey) : c'.Writes hand := by
  have hkeyOf : ∀ topic, c.keyOf topic = c'.keyOf topic := by
    intro topic
    rw [keyOf, keyOf, hid, hkey]
  cases h with
  | publish topic requestId payload h =>
    rw [hkeyOf]
    exact .publish topic requestId payload (by rw [hid, ← hkeyOf]; exact h)
  | direct target requestId payload h =>
    exact .direct target requestId payload (by rw [hid]; exact h)
  | pong requestId payload h => exact .pong requestId payload h
  | error code message h => exact .error code message h

/-! ### Turns -/

/-- What a step of the reader leaves in hand: nothing, what it just wrote, or the publish it had, with a
    channel found for it. -/
inductive Turn (w : World E) (c : Session E) (w' : World E) : ReaderPc E → Prop
  | empty {pc : ReaderPc E} (h : pc.hand = none) : Turn w c w' pc
  | written {hand : Hand E} (h : c.Writes hand) : Turn w c w' hand.readerPc
  | located {topicKey : String} {ch : ℕ} {encoded : E.Bytes}
      (hr : c.reader = .publishing topicKey encoded) (hs : w.topicSender topicKey = some (ch, w')) :
      Turn w c w' (.sending topicKey ch encoded)

/-- What a step of a call leaves in hand. -/
inductive CallTurn (w : World E) (d : Call E) (w' : World E) : Call E → Prop
  | empty {d' : Call E} (h : d'.pc.hand = none) : CallTurn w d w' d'
  | published {identity : AuthIdentity} {topicKey : String} {encoded : E.Bytes}
      (h : Call.Writes { d with identity := identity } (.publish topicKey encoded)) :
      CallTurn w d w' { d with identity := identity, pc := .publishing topicKey encoded }
  | directed {identity : AuthIdentity} {target : String} {encoded : E.Bytes}
      (h : Call.Writes { d with identity := identity } (.direct target encoded)) :
      CallTurn w d w' { d with identity := identity, pc := .directing target encoded }
  | located {topicKey : String} {ch : ℕ} {encoded : E.Bytes} (hp : d.pc = .publishing topicKey encoded)
      (hs : w.topicSender topicKey = some (ch, w')) :
      CallTurn w d w' { d with pc := .sending topicKey ch encoded }

variable {v w' : World E}

theorem turn_sendError {c' : Session E} (now : ℕ) (code message : String) :
    Turn v c w' (c'.sendError now code message).reader := by
  unfold Session.sendError
  split
  · rename_i encoded henc
    have hw : c.Writes (.reply encoded) := .error code message henc
    exact .written hw
  · exact .empty rfl

theorem turn_handle (f : Inbound) : Turn v c w' (Reader.handle w c f).2.reader := by
  have hevent : ∀ event, Turn v c w' (Reader.handleClientEvent w c event).2.reader := by
    intro event
    cases event with
    | publish topic requestId payload =>
      simp only [Reader.handleClientEvent]
      split
      · rename_i encoded henc
        have hw : c.Writes (.publish (c.keyOf topic) encoded) :=
          .publish topic requestId payload henc
        exact .written hw
      · exact turn_sendError _ _ _
    | direct target requestId payload =>
      simp only [Reader.handleClientEvent]
      split
      · rename_i encoded henc
        have hw : c.Writes (.direct target encoded) := .direct target requestId payload henc
        exact .written hw
      · exact turn_sendError _ _ _
    | ping requestId payload =>
      simp only [Reader.handleClientEvent]
      split
      · rename_i encoded henc
        have hw : c.Writes (.reply encoded) := .pong requestId payload henc
        exact .written hw
      · exact turn_sendError _ _ _
  cases f <;> simp only [Reader.handle] <;> split
  all_goals first | exact hevent _ | exact turn_sendError _ _ _

theorem turn_frame {c' : Session E} (f : Frame) : Turn v c w' (Reader.frame w i c' f).2.reader := by
  have hgate : ∀ tooLarge g, Turn v c w' (Reader.gate w c' tooLarge g).2.reader := by
    intro tooLarge g
    simp only [Reader.gate]
    split
    · exact .empty rfl
    · split
      · exact turn_sendError _ _ _
      · exact .empty rfl
  cases f with
  | text t => exact hgate _ _
  | binary raw => exact hgate _ _
  | ping payload | pong | close | eof | failure => exact .empty rfl

theorem reader_turn {a : ReaderAct} (h : Reader.step w i c a = some r) :
    Turn w c r.1 r.2.reader := by
  cases a with
  | frame f =>
    simp only [Reader.step] at h
    split at h <;> cases h
    exact turn_frame f
  | tenantRate =>
    simp only [Reader.step] at h
    split at h <;> cases h
    simp only [Reader.tenantRate]
    split
    · exact turn_sendError _ _ _
    · exact turn_handle _
  | locate =>
    simp only [Reader.step] at h
    split at h <;> cases h
    rename_i topicKey encoded hr
    unfold Reader.locate
    split
    · rename_i ch w' hs
      exact .located hr hs
    · exact .empty rfl
  | direct =>
    simp only [Reader.step] at h
    split at h <;> cases h
    simp only [Reader.direct]
    split
    · exact turn_sendError _ _ _
    · exact .empty rfl
  | limitError =>
    simp only [Reader.step] at h
    split at h <;> cases h
    simp only [Reader.limitError]
    split <;> exact .empty rfl
  | start | send | reply | limitClose =>
    simp only [Reader.step] at h
    split at h <;> cases h
    exact .empty rfl
  | idleTimeout =>
    simp only [Reader.step] at h
    split at h
    · split at h <;> cases h
      exact .empty rfl
    · cases h

theorem call_turn {d : Call E} {s : World E × Call E} {a : CallAct} (h : Api.step w i d a = some s) :
    CallTurn w d s.1 s.2 := by
  cases a with
  | resolve =>
    simp only [Api.step] at h
    split at h <;> cases h
    unfold Api.resolve
    split
    · exact .empty rfl
    · rename_i identity hid
      dsimp only
      split
      · rename_i body hb
        unfold Api.publish
        dsimp only
        split
        · rename_i encoded henc
          exact .published (.publish body hb henc)
        · exact .empty rfl
      · rename_i body hb
        unfold Api.direct
        split
        · rename_i encoded henc
          exact .directed (.direct body hb henc)
        · exact .empty rfl
  | locate =>
    simp only [Api.step] at h
    split at h <;> cases h
    rename_i topicKey encoded hp
    unfold Api.locate
    split
    · rename_i ch w' hs
      exact .located hp hs
    · exact .empty rfl
  | send =>
    simp only [Api.step] at h
    split at h <;> cases h
    exact .empty rfl
  | direct =>
    simp only [Api.step] at h
    split at h <;> cases h
    simp only [Api.deliver]
    split <;> exact .empty rfl

end WsServer
