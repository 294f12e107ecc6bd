import WsServer.Senders
import WsServer.Shown

/-! The web client at the other end of a run. Every binary message that any task ever puts into a client
    queue is the encoding of an event; with `rmp_serde` and the browser as documented, the client reads it
    exactly when no number in it is a fraction or below `-2^31`, refuses it with the decoder's
    `unsupported` error otherwise, and shows the event itself exactly when it is faithful. -/

namespace WsServer

open Lib

variable {E : Ext} {config : Config} {p : ServerState E} {i j : ℕ} {js : Browser}

/-! ### What is in the queues -/

/-- The bytes encode an event. -/
def EncodesEvent (b : E.Bytes) : Prop := ∃ event : ServerEvent E.Value, encodeServerEvent event = some b

/-- Everything published is a `Message` from its publisher. -/
theorem isMessage_run (h : Runs config always p) : ∀ q ∈ p.shared.published, q.IsMessage := by
  refine h.invariant (I := fun (p : ServerState E) => ∀ q ∈ p.shared.published, q.IsMessage)
    (by intro q hq; cases hq) ?_
  intro p a p' hr hI _ hs
  cases a with
  | spawn request =>
    cases hs
    exact hI
  | env d =>
    obtain ⟨w', he, rfl⟩ := Prog.next_env hs
    cases he
    exact hI
  | run i a =>
    obtain ⟨l, w', l', hl, (hstep : Task.step p.shared i l a = some (w', l')), rfl⟩ :=
      Prog.next_run hs
    rcases published_step hstep with he | ⟨ch, q, hq, he⟩
    · intro q hq
      exact hI q (by rwa [← he])
    · intro q' hq'
      rcases List.mem_append.mp (he ▸ hq' : q' ∈ p.shared.published ++ [q]) with hq' | hq'
      · exact hI q' hq'
      · obtain rfl := List.mem_singleton.mp hq'
        obtain ⟨hhand, hid, -⟩ := hand_of_publication hq
        obtain ⟨topic, requestId, payload, henc⟩ := message_of_writes (worded_run hr hl _ hhand)
        exact ⟨topic, requestId, payload, by rw [← hid]; exact henc⟩

theorem encodes_of_puts {l : Task E} {x : Item E} {b : E.Bytes} (h : Runs config always p)
    (hl : p.threads[i]? = some l) (hx : Puts p.shared i j l x) (hb : x.msg = .binary b) :
    EncodesEvent b := by
  cases hx with
  | ready own hst hready =>
    obtain ⟨encoded, henc, rfl⟩ := hready
    cases hb
    exact ⟨_, henc⟩
  | forwarded own hf =>
    rename_i c m
    have hcursor := (cursor_run h).session i c (session_eq_some.mpr hl)
    have hm : m.message ∈ forwarded (p.shared.queues i) ++ c.inHand := by
      rw [Session.inHand, hf]
      exact List.mem_append_right _ List.mem_cons_self
    obtain ⟨q, hq, hmsg⟩ := hcursor.carried _ hm
    obtain ⟨topic, requestId, payload, henc⟩ := isMessage_run h q (List.mem_of_getElem? hq)
    have hbytes : OutboundMessage.binary b = .binary q.encoded := hb.symm.trans hmsg
    cases hbytes
    exact ⟨_, henc⟩
  | reply own hr =>
    rename_i c encoded
    have hw : c.Writes (.reply encoded) := worded_run h hl _ (by rw [Task.hand, hr]; rfl)
    cases hb
    cases hw with
    | pong requestId payload henc => exact ⟨_, henc⟩
    | error code message henc => exact ⟨_, henc⟩
  | limited own henc =>
    cases hb
    exact ⟨_, henc⟩
  | control own hsource hmsg => exact (hmsg b hb).elim
  | direct hh hto =>
    cases hb
    obtain ⟨requestId, payload, henc⟩ := directMessage_of_writes (worded_run h hl _ hh)
    exact ⟨_, henc⟩

/-- Every binary message in the history of a client queue encodes an event. -/
theorem encodes_run (h : Runs config always p) : ∀ j, ∀ x ∈ (p.shared.queues j).placed, ∀ b,
    x.msg = .binary b → EncodesEvent b := by
  refine h.invariant (I := fun (p : ServerState E) => ∀ j, ∀ x ∈ (p.shared.queues j).placed, ∀ b,
    x.msg = .binary b → EncodesEvent b) (by intro j x hx; cases hx) ?_
  intro p a p' hr hI _ hs
  cases a with
  | spawn request =>
    cases hs
    exact hI
  | env d =>
    obtain ⟨w', he, rfl⟩ := Prog.next_env hs
    cases he
    exact hI
  | run i a =>
    obtain ⟨l, w', l', hl, (hstep : Task.step p.shared i l a = some (w', l')), rfl⟩ :=
      Prog.next_run hs
    intro j x hx b hb
    rcases (step_puts hstep).mem hx with hx | hx
    · exact hI j x hx b hb
    · exact encodes_of_puts hr hl hx hb

/-! ### What the client makes of them -/

/-- The events of the model as `rmp_serde` writes them. -/
structure RmpSerde (E : Ext) where
  json : E.Value → Json
  bytes : E.Bytes → List UInt8
  documented : ∀ event b, E.toVecNamed event = some b → bytes b = rmpToVecNamed json event

/-- In every run the client reads each message back as its event. -/
theorem client_view (rmp : RmpSerde E) (hjs : js.Documented) (h : Runs config always p) (j : ℕ) :
    ∀ x ∈ (p.shared.queues j).placed, ∀ b, x.msg = .binary b →
      ∃ event : ServerEvent E.Value, encodeServerEvent event = some b ∧
        ((event.json rmp.json).Valid → (event.json rmp.json).msg.depth ≤ js.stack →
          ReadBack js (event.json rmp.json) (rmp.bytes b)) := by
  intro x hx b hb
  obtain ⟨event, henc⟩ := encodes_run h j x hx b hb
  refine ⟨event, henc, fun hv hd => ?_⟩
  rw [rmp.documented event b henc]
  exact read_back hjs hv hd

/-! ### A small instance -/

/-- `Ext.plain` with JSON payloads. -/
def Ext.wire : Ext where
  F := Ext.plain.F
  f64 := Ext.plain.f64
  Value := Json
  Bytes := ServerEvent Json
  slotSize := 56
  DecodingKey := String
  toVecNamed := some
  fromStr _ := none
  fromSlice _ := none
  fromSecret := id
  fromRsaPem _ := none
  fromEcPem _ := none
  fromEdPem _ := none
  decode _ _ _ _ := .error .other

def Ext.wireRmp : RmpSerde Ext.wire where
  json := id
  bytes := rmpToVecNamed id
  documented event b h := by
    cases h
    rfl

/-- The `Ready` of a client that did not say anything. -/
def anonymousReady : ServerEvent Json := .ready "public" "anonymous"

def OutboundMessage.isAnonymousReady : OutboundMessage Ext.wire → Bool
  | .binary (.ready topic clientId) => topic = "public" && clientId = "anonymous"
  | _ => false

theorem msg_of_isAnonymousReady {m : OutboundMessage Ext.wire} (h : m.isAnonymousReady = true) :
    m = .binary anonymousReady := by
  unfold OutboundMessage.isAnonymousReady at h
  split at h
  · simp only [Bool.and_eq_true, decide_eq_true_eq] at h
    obtain ⟨rfl, rfl⟩ := h
    rfl
  · cases h

/-- One client up to its `Ready`. -/
def wireReady : List (ServerAct Ext.wire) :=
  [.spawn (.ws (.v4 1) { topic := "public", clientId := none, tenantId := none, token := none })] ++
    steps 0 (handshakeSteps ++ registerSteps ++ [.setup .ready])

theorem client_view_ready : ∃ p : ServerState Ext.wire,
    (∃ x ∈ (p.shared.queues 0).placed, x.msg = .binary anonymousReady) ∧
      ReadBack Browser.strict (anonymousReady.json id) (rmpToVecNamed id anonymousReady) := by
  obtain ⟨p, hrun, hcheck⟩ := play_check Config.plain (fun _ _ => true) wireReady
    (fun (p : ServerState Ext.wire) => (p.shared.queues 0).placed.any fun x => x.msg.isAnonymousReady)
    (by decide +kernel)
  obtain ⟨x, hx, hmsg⟩ := List.any_eq_true.mp hcheck
  have hb := msg_of_isAnonymousReady hmsg
  obtain ⟨event, henc, hread⟩ :=
    client_view Ext.wireRmp Browser.strict_documented hrun.toAlways 0 x hx anonymousReady hb
  obtain rfl : event = anonymousReady := Option.some.inj henc
  have hvalid : (anonymousReady.json id).Valid := by
    simp only [anonymousReady, ServerEvent.json, Json.Valid, Json.MembersValid]
    decide
  exact ⟨p, ⟨x, hx, hb⟩, hread hvalid (by decide)⟩

end WsServer
