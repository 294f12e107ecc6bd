import WsServer.Connection

/-! `POST /api/publish` and `POST /api/direct` (`api.rs`). A `Call` is one request with its answer.
    Verifying the token and encoding the event touch no shared state and are one step; the two halves
    of `publish` and `send_to_client` are the others. -/

namespace WsServer

open Lib

structure PublishBody (Value : Type) where
  topic : Option String
  requestId : Option String
  payload : Value

structure DirectBody (Value : Type) where
  target : String
  requestId : Option String
  payload : Value

/-- Status and body of an answer. -/
inductive ApiResponse where
  | published (receivers : ℕ)
  | error (status : ℕ) (error : String)
  | direct (status : ℕ) (ok : Bool) (error : Option String)
  deriving DecidableEq

inductive ApiRequest (Value : Type) where
  | publish (body : PublishBody Value)
  | direct (body : DirectBody Value)

inductive CallPc (E : Ext) where
  | arrived
  | publishing (topicKey : String) (encoded : E.Bytes)
  | sending (topicKey : String) (ch : ℕ) (encoded : E.Bytes)
  | directing (target : String) (encoded : E.Bytes)
  | done (response : ApiResponse)
  | panicked

/-- An HTTP call: the `Authorization` header, the body, and the identity it was resolved to. -/
structure Call (E : Ext) where
  authorization : Option String
  request : ApiRequest E.Value
  identity : AuthIdentity
  pc : CallPc E

variable {E : Ext}

def Call.arrive (authorization : Option String) (request : ApiRequest E.Value) : Call E :=
  { authorization := authorization, request := request, identity := ⟨"", ""⟩, pc := .arrived }

/-- `str::strip_prefix` -/
def stripPrefix (pre s : String) : Option String :=
  if pre.toList <+: s.toList then some (String.ofList (s.toList.drop pre.toList.length)) else none

def extractBearer (authorization : Option String) : Option String :=
  authorization.bind (stripPrefix "Bearer ")

/-- The identity of a call; with auth off it is a fixed one. -/
def resolveIdentity (auth : Option (AuthVerifier E)) (now : ℕ) (authorization : Option String) :
    Except (ℕ × String) AuthIdentity :=
  match auth with
  | some verifier =>
    match extractBearer authorization with
    | none => .error (401, "missing Authorization header\n")
    | some token =>
      match verifier.verify now token with
      | .ok identity => .ok identity
      | .error err => .error (401, "invalid token: " ++ err.text ++ "\n")
  | none => .ok { clientId := "api", tenantId := "default" }

inductive CallAct where
  | resolve
  | locate
  | send
  | direct

namespace Api

/-- Up to the first access to shared state. The label is the topic as the caller wrote it. -/
def publish (c : Call E) (body : PublishBody E.Value) : Call E :=
  let topic := body.topic.getD "public"
  let topicKey := tenantTopic c.identity.tenantId (normalizeTopic topic)
  match encodeServerEvent (.message topic c.identity.clientId body.requestId body.payload) with
  | some encoded => { c with pc := .publishing topicKey encoded }
  | none => { c with pc := .done (.error 500 "encode failed") }

def direct (c : Call E) (body : DirectBody E.Value) : Call E :=
  match encodeServerEvent
      (.directMessage c.identity.clientId body.target body.requestId body.payload) with
  | some encoded => { c with pc := .directing body.target encoded }
  | none => { c with pc := .done (.direct 500 false (some "encode failed")) }

def resolve (w : World E) (c : Call E) : Call E :=
  match resolveIdentity w.app.auth w.now c.authorization with
  | .error (status, msg) => { c with pc := .done (.error status msg) }
  | .ok identity =>
    let c := { c with identity := identity }
    match c.request with
    | .publish body => publish c body
    | .direct body => direct c body

def locate (w : World E) (c : Call E) (topicKey : String) (encoded : E.Bytes) :
    World E × Call E :=
  match w.topicSender topicKey with
  | some (ch, w') => (w', { c with pc := .sending topicKey ch encoded })
  | none => (w, { c with pc := .panicked })

/-- Every receiver counts as an outbound message. -/
def send (w : World E) (i : ℕ) (c : Call E) (topicKey : String) (ch : ℕ) (encoded : E.Bytes) :
    World E × Call E :=
  let r := w.publish ch ⟨topicKey, c.identity, .http i, encoded⟩
  (r.2.withMetrics
      (if r.1 = 0 then Metrics.messageDropped else Nat.iterate Metrics.messageOut r.1),
    { c with pc := .done (.published r.1) })

def deliver (w : World E) (c : Call E) (target : String) (encoded : E.Bytes) :
    World E × Call E :=
  let r := w.sendToClient target c.identity.tenantId encoded c.identity
  if r.1 then
    (r.2.withMetrics Metrics.messageOut, { c with pc := .done (.direct 200 true none) })
  else
    (r.2.withMetrics Metrics.messageDropped,
      { c with pc := .done (.direct 404 false (some "client_not_found")) })

def step (w : World E) (i : ℕ) (c : Call E) : CallAct → Option (World E × Call E)
  | .resolve =>
    match c.pc with
    | .arrived => some (w, resolve w c)
    | _ => none
  | .locate =>
    match c.pc with
    | .publishing topicKey encoded => some (locate w c topicKey encoded)
    | _ => none
  | .send =>
    match c.pc with
    | .sending topicKey ch encoded => some (send w i c topicKey ch encoded)
    | _ => none
  | .direct =>
    match c.pc with
    | .directing target encoded => some (deliver w c target encoded)
    | _ => none

end Api

end WsServer
