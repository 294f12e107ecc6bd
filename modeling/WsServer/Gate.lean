import WsServer.Counters
import WsServer.Ordering
import WsServer.Worded

/-! The gate that every text and binary frame passes before it is an event: the rate of the connection,
    the size of a text, the rate of the tenant, the parser. `Passage` says once what a step of the reader
    means to the gate; a step that decides on a frame, or answers one that was refused, touches nothing
    but counters, buckets and the connection's own queue. -/

namespace WsServer

open Lib

variable {E : Ext} {w : World E} {i : ℕ} {c : Session E} {r : World E × Session E}

/-- Where a frame is refused. -/
inductive GateRefusal where | rate | size | tenantRate | parse
  deriving DecidableEq

/-- What becomes of a frame: it is handed to `handle_client_event`, or refused. -/
inductive Verdict where
  | handed
  | refused (why : GateRefusal)
  deriving DecidableEq

/-- What the parser of its format makes of a frame. -/
def Inbound.event (E : Ext) : Inbound → Option (ClientEvent E.Value)
  | .text raw => parseClientEventText raw
  | .binary raw => parseClientEventBinary raw

/-- What a step of the reader decides. -/
def Reader.verdict (w : World E) (c : Session E) : ReaderAct → Option Verdict
  | .frame (.text text) =>
    if !(c.limiter.allow w.now).1 then some (.refused .rate)
    else if w.app.config.maxTextBytes < text.utf8ByteSize then some (.refused .size)
    else none
  | .frame (.binary _) => if !(c.limiter.allow w.now).1 then some (.refused .rate) else none
  | .tenantRate =>
    match c.reader with
    | .checking f =>
      if !(w.app.checkTenantRate w.now c.identity.tenantId).1 then some (.refused .tenantRate)
      else if (f.event E).isSome then some .handed
      else some (.refused .parse)
    | _ => none
  | _ => none

/-- The number of the frame that a step of the reader is about. -/
def Session.frameAt (c : Session E) : ReaderAct → ℕ
  | .frame _ => c.frames + 1
  | _ => c.frames

/-- The step is about a frame: it reads one or goes on with one. -/
def ReaderAct.onFrame : ReaderAct → Bool
  | .start | .idleTimeout => false
  | _ => true

def Frame.isData : Frame → Bool
  | .text _ | .binary _ => true
  | _ => false

/-- The frame is in the gate. -/
def ReaderPc.isChecking : ReaderPc E → Bool
  | .checking _ => true
  | _ => false

/-- The frame is an event that is being carried out. -/
def ReaderPc.isWorking : ReaderPc E → Bool
  | .publishing _ _ | .sending _ _ _ | .directing _ _ => true
  | _ => false

/-- There is no frame, and the last one was not over the rate. -/
def ReaderPc.isResting : ReaderPc E → Bool
  | .off | .spawned | .idle | .cancelled => true
  | .ended how =>
    match how with
    | .rateLimited _ _ => false
    | _ => true
  | _ => false

theorem isChecking_of_resting {pc : ReaderPc E} (h : pc.isResting = true) : pc.isChecking = false := by
  cases pc <;> first | rfl | cases h

theorem isChecking_of_working {pc : ReaderPc E} (h : pc.isWorking = true) : pc.isChecking = false := by
  cases pc <;> first | rfl | cases h

theorem isChecking_of_hand {pc : ReaderPc E} (h : pc.hand.isSome = true) : pc.isChecking = false := by
  cases pc <;> first | rfl | cases h

/-- Only reading starts a new frame. -/
theorem frameAt_of_ne {a : ReaderAct} (h : ∀ f, a ≠ .frame f) (c : Session E) : c.frameAt a = c.frames := by
  cases a with
  | frame f => exact absurd rfl (h f)
  | _ => rfl

theorem verdict_of_offFrame {a : ReaderAct} (h : a.onFrame = false) (w : World E) (c : Session E) :
    Reader.verdict w c a = none := by
  cases a <;> first | rfl | cases h

def Item.IsError (x : Item E) : Prop :=
  ∃ code message encoded, encodeServerEvent (.error code message) = some encoded ∧
    x.msg = .binary encoded

def Item.IsClose (x : Item E) : Prop := ∃ code reason, x.msg = .close code reason

/-! ### What a step of the gate leaves alone -/

/-- No topic channel, no registry entry and no queue of another connection changed, and the own queue
    and the counter of drops only grew. -/
structure Quiet (w w' : World E) (i : ℕ) : Prop where
  wiring : w'.wiring = w.wiring
  registry : w'.registry = w.registry
  queues : ∀ j, j ≠ i → w'.queues j = w.queues j
  placed : (w.queues i).placed <+: (w'.queues i).placed
  dropped : w.app.metrics.droppedMessages ≤ w'.app.metrics.droppedMessages

/-- `messages_in`, `protocol_errors` and `tenant_rate_rejected`. -/
def World.intake (w : World E) : ℕ × ℕ × ℕ :=
  (w.app.metrics.messagesIn, w.app.metrics.protocolErrors, w.app.metrics.tenantRateRejected)

/-- What a refusal counts. -/
def GateRefusal.counts : GateRefusal → ℕ × ℕ × ℕ
  | .tenantRate => (0, 0, 1)
  | _ => (0, 1, 0)

theorem apart_intake : Apart (World.intake (E := E)) where
  queued _ _ _ := rfl
  wired _ _ _ _ := rfl
  pooled _ _ _ _ := rfl
  dropped _ := rfl
  refused _ k := by cases k <;> rfl
  rejected _ := rfl
  listed _ _ _ _ _ := rfl
  accepted _ := rfl
  closed _ := rfl
  written _ := rfl

/-- Counters apart, only buckets of tenants changed. -/
structure Silent (w w' : World E) : Prop where
  wiring : w'.wiring = w.wiring
  registry : w'.registry = w.registry
  queues : w'.queues = w.queues
  dropped : w'.app.metrics.droppedMessages = w.app.metrics.droppedMessages

theorem Silent.quiet {w' : World E} (h : Silent w w') (i : ℕ) : Quiet w w' i where
  wiring := h.wiring
  registry := h.registry
  queues _ _ := by rw [h.queues]
  placed := by rw [h.queues]
  dropped := h.dropped.ge

theorem quiet_trySend (w : World E) (i : ℕ) (x : Item E) : Quiet w (w.trySend i x).2 i where
  wiring := World.wiring_trySend w i x
  registry := congrArg Books.registry (World.books_trySend w i x)
  queues _ hne := World.queues_trySend_ne w x hne
  placed := (World.grew_trySend w i x i).placed
  dropped := by
    rcases World.trySend_cases w i x with ⟨q, -, h⟩ | ⟨-, h⟩
    · rw [h]
      exact le_rfl
    · rw [h]

theorem quiet_sendEncoded (w : World E) (i : ℕ) (encoded : E.Bytes) (source : Source) :
    Quiet w (w.sendEncoded i encoded source).2 i := by
  have hsend := quiet_trySend w i ⟨.binary encoded, source⟩
  simp only [World.sendEncoded]
  split
  · exact hsend
  · exact ⟨hsend.wiring, hsend.registry, hsend.queues, hsend.placed,
      hsend.dropped.trans (Nat.le_succ _)⟩

/-! ### Passages -/

/-- What a step of the reader means to the gate. -/
inductive Passage (w : World E) (i : ℕ) (c : Session E) (a : ReaderAct) (r : World E × Session E) :
    Prop
  | limited (verdict : Reader.verdict w c a = some (.refused .rate)) (silent : Silent w r.1)
      (idle : c.reader = .idle) (reader : r.2.reader = .limited)
      (frame : ∃ f, a = .frame f) (intake : r.1.intake = w.intake + (1, 0, 0) + GateRefusal.rate.counts)
  | refused (why : GateRefusal) (soft : why ≠ .rate) (encoded : E.Bytes)
      (verdict : Reader.verdict w c a = some (.refused why)) (silent : Silent w r.1)
      (error : ∃ code message, encodeServerEvent (E := E) (.error code message) = some encoded)
      (reader : r.2.reader = .replying encoded)
      (intake : (c.reader = .idle ∧ (∃ f, a = .frame f) ∧
          r.1.intake = w.intake + (1, 0, 0) + why.counts) ∨
        (c.reader.isChecking = true ∧ a = .tenantRate ∧ r.1.intake = w.intake + why.counts))
  | enters (verdict : Reader.verdict w c a = none) (silent : Silent w r.1) (idle : c.reader = .idle)
      (frame : ∃ f, a = .frame f) (checking : r.2.reader.isChecking = true)
      (intake : r.1.intake = w.intake + (1, 0, 0))
  | handed (act : a = .tenantRate) (verdict : Reader.verdict w c a = some .handed)
      (silent : Silent w r.1) (checking : c.reader.isChecking = true) (hand : r.2.reader.hand.isSome = true)
      (intake : r.1.intake = w.intake)
  | replies (encoded : E.Bytes) (act : a = .reply) (before : c.reader = .replying encoded)
      (after : r.2.reader = .idle) (world : r.1 = (w.sendEncoded i encoded .reply).2)
  | limitError (encoded : E.Bytes) (act : a = .limitError) (before : c.reader = .limited)
      (error : encodeServerEvent (.error "rate_limited" "message rate limit exceeded") = some encoded)
      (after : ∃ e, r.2.reader = .limitedClose e) (world : r.1 = (w.sendEncoded i encoded .reply).2)
  | limitClose (act : a = .limitClose) (before : ∃ e, c.reader = .limitedClose e)
      (after : ∃ e e', r.2.reader = .ended (.rateLimited e e'))
      (world : r.1 = (w.trySend i ⟨.close 1008 "rate limit exceeded", .close⟩).2)
  | control (f : Frame) (act : a = .frame f) (raw : f.isData = false) (idle : c.reader = .idle)
      (after : r.2.reader.isResting = true) (intake : r.1.intake = w.intake)
  | works (verdict : Reader.verdict w c a = none) (act : ∀ f, a ≠ .frame f)
      (before : c.reader.isWorking = true)
      (after : r.2.reader.isResting = true ∨ r.2.reader.hand.isSome = true)
      (intake : r.1.intake = w.intake)
  | rests (act : a.onFrame = false) (before : c.reader.isResting = true)
      (after : r.2.reader.isResting = true) (intake : r.1.intake = w.intake)

theorem sendError_reader (hencode : ∀ event, (encodeServerEvent (E := E) event).isSome = true)
    (now : ℕ) (code message : String) :
    ∃ encoded, encodeServerEvent (E := E) (.error code message) = some encoded ∧
      ∀ c : Session E, (c.sendError now code message).reader = .replying encoded := by
  obtain ⟨encoded, h⟩ := Option.isSome_iff_exists.mp (hencode (.error code message))
  exact ⟨encoded, h, fun c => by rw [Session.sendError, h]⟩

section
variable (hencode : ∀ event, (encodeServerEvent (E := E) event).isSome = true)
include hencode

/-- The first checks of a text or binary frame. -/
theorem passage_gate {a : ReaderAct} {f : Frame} {tooLarge : Bool} {g : Inbound} (ha : a = .frame f)
    (hidle : c.reader = .idle)
    (hverdict : Reader.verdict w c a = if !(c.limiter.allow w.now).1 then some (.refused .rate)
      else if tooLarge then some (.refused .size) else none) :
    Passage w i c a (Reader.gate w { c with frames := c.frames + 1 } tooLarge g) := by
  simp only [Reader.gate]
  split
  · rename_i hrate
    rw [if_pos (show (!(c.limiter.allow w.now).1) = true from hrate)] at hverdict
    exact .limited hverdict ⟨rfl, rfl, rfl, rfl⟩ hidle rfl ⟨f, ha⟩ rfl
  · rename_i hrate
    rw [if_neg (show ¬ (!(c.limiter.allow w.now).1) = true from hrate)] at hverdict
    split
    · rename_i hlarge
      rw [if_pos hlarge] at hverdict
      obtain ⟨encoded, henc, hreader⟩ := sendError_reader hencode w.now "message_too_large"
        "text message exceeds configured limit"
      exact .refused .size (by decide) encoded hverdict ⟨rfl, rfl, rfl, rfl⟩ ⟨_, _, henc⟩ (hreader _)
        (.inl ⟨hidle, ⟨f, ha⟩, rfl⟩)
    · rename_i hfits
      rw [if_neg hfits] at hverdict
      exact .enters hverdict ⟨rfl, rfl, rfl, rfl⟩ hidle ⟨f, ha⟩ rfl rfl

/-- An event that can be encoded leaves bytes in hand and the world alone. -/
theorem handle_event (event : ClientEvent E.Value) :
    (Reader.handleClientEvent w c event).1 = w ∧
      (Reader.handleClientEvent w c event).2.reader.hand.isSome = true := by
  cases event with
  | publish topic requestId payload | direct target requestId payload | ping requestId payload =>
    simp only [Reader.handleClientEvent]
    split
    · exact ⟨rfl, rfl⟩
    · rename_i hnone
      exact absurd (hencode _) (by rw [hnone]; exact Bool.false_ne_true)

/-- The parser, and what follows from it. -/
theorem handle_cases (f : Inbound) :
    ((f.event E).isSome = true ∧ (Reader.handle w c f).1 = w ∧
      (Reader.handle w c f).2.reader.hand.isSome = true) ∨
    ((f.event E).isSome = false ∧ (Reader.handle w c f).1 = w.withMetrics Metrics.protocolError ∧
      ∃ code message encoded, encodeServerEvent (E := E) (.error code message) = some encoded ∧
        (Reader.handle w c f).2.reader = .replying encoded) := by
  cases f with
  | text raw =>
    simp only [Reader.handle, Inbound.event]
    cases parseClientEventText (E := E) raw with
    | some event => exact Or.inl ⟨rfl, handle_event hencode event⟩
    | none =>
      obtain ⟨encoded, henc, hreader⟩ := sendError_reader hencode w.now "invalid_json"
        "message must match the websocket JSON protocol"
      exact Or.inr ⟨rfl, rfl, _, _, encoded, henc, hreader _⟩
  | binary raw =>
    simp only [Reader.handle, Inbound.event]
    cases parseClientEventBinary (E := E) raw with
    | some event => exact Or.inl ⟨rfl, handle_event hencode event⟩
    | none =>
      obtain ⟨encoded, henc, hreader⟩ := sendError_reader hencode w.now "invalid_msgpack"
        "binary message must match the websocket MessagePack protocol"
      exact Or.inr ⟨rfl, rfl, _, _, encoded, henc, hreader _⟩

/-- The later checks. -/
theorem passage_tenantRate {f : Inbound} (hr : c.reader = .checking f) :
    Passage w i c .tenantRate (Reader.tenantRate w c f) := by
  have hchecking : c.reader.isChecking = true := by rw [hr]; rfl
  have hverdict : Reader.verdict w c .tenantRate =
      if !(w.app.checkTenantRate w.now c.identity.tenantId).1 then some (.refused .tenantRate)
      else if (f.event E).isSome then some .handed else some (.refused .parse) := by
    simp only [Reader.verdict, hr]
  obtain ⟨limits, hl⟩ := Reader.checkTenantRate_spec w.app w.now c.identity.tenantId
  simp only [Reader.tenantRate]
  by_cases hrate : (!(w.app.checkTenantRate w.now c.identity.tenantId).1) = true
  · rw [if_pos hrate] at hverdict ⊢
    obtain ⟨encoded, henc, hreader⟩ := sendError_reader hencode w.now "tenant_rate_limited"
      "tenant message rate exceeded"
    rw [hl]
    exact .refused .tenantRate (by decide) encoded hverdict ⟨rfl, rfl, rfl, rfl⟩ ⟨_, _, henc⟩
      (hreader _) (.inr ⟨hchecking, rfl, rfl⟩)
  · rw [if_neg hrate] at hverdict ⊢
    rw [hl]
    rcases handle_cases (w := { w with app := { w.app with tenantRateLimits := limits } }) (c := c)
      hencode f with ⟨hsome, hworld, hhand⟩ | ⟨hnone, hworld, code, message, encoded, henc, hreader⟩
    · rw [if_pos hsome] at hverdict
      exact .handed rfl hverdict (by rw [hworld]; exact ⟨rfl, rfl, rfl, rfl⟩) hchecking hhand
        (by rw [hworld]; rfl)
    · rw [if_neg (by rw [hnone]; exact Bool.false_ne_true)] at hverdict
      exact .refused .parse (by decide) encoded hverdict (by rw [hworld]; exact ⟨rfl, rfl, rfl, rfl⟩)
        ⟨_, _, henc⟩ hreader (.inr ⟨hchecking, rfl, by rw [hworld]; rfl⟩)

theorem reader_passage {a : ReaderAct} (h : Reader.step w i c a = some r) : Passage w i c a r := by
  cases a with
  | start =>
    simp only [Reader.step] at h
    split at h <;> cases h
    rename_i hr
    exact .rests rfl (by rw [hr]; rfl) rfl rfl
  | frame f =>
    simp only [Reader.step] at h
    split at h <;> cases h
    rename_i hr
    cases f with
    | text raw => exact passage_gate hencode rfl hr (by simp only [Reader.verdict, decide_eq_true_eq])
    | binary raw => exact passage_gate hencode rfl hr (by simp [Reader.verdict])
    | ping payload => exact .control _ rfl rfl hr rfl (apart_intake.trySend w i _)
    | pong | close | eof | failure => exact .control _ rfl rfl hr rfl rfl
  | tenantRate =>
    simp only [Reader.step] at h
    split at h <;> cases h
    rename_i f hr
    exact passage_tenantRate hencode hr
  | locate =>
    simp only [Reader.step] at h
    split at h <;> cases h
    rename_i topicKey encoded hr
    unfold Reader.locate
    split
    · rename_i ch w' hs
      exact .works rfl (by rintro f ⟨⟩) (by rw [hr]; rfl) (.inr rfl) (apart_intake.topicSender hs)
    · exact .works rfl (by rintro f ⟨⟩) (by rw [hr]; rfl) (.inl rfl) rfl
  | send =>
    simp only [Reader.step] at h
    split at h <;> cases h
    rename_i topicKey ch encoded hr
    have hintake := apart_intake.publish w ch ⟨topicKey, c.identity, .ws i c.frames, encoded⟩
    refine .works rfl (by rintro f ⟨⟩) (by rw [hr]; rfl) (.inl rfl) ?_
    simp only [Reader.send]
    split
    · exact hintake
    · exact hintake
  | direct =>
    simp only [Reader.step] at h
    split at h <;> cases h
    rename_i target encoded hr
    have hintake := apart_intake.sendToClient w target c.identity.tenantId encoded c.identity
    simp only [Reader.direct]
    split
    · obtain ⟨bytes, -, hreader⟩ := sendError_reader hencode w.now "client_not_found"
        "target client is not online"
      exact .works rfl (by rintro f ⟨⟩) (by rw [hr]; rfl) (.inr (by rw [hreader c]; rfl)) hintake
    · exact .works rfl (by rintro f ⟨⟩) (by rw [hr]; rfl) (.inl rfl) hintake
  | reply =>
    simp only [Reader.step] at h
    split at h <;> cases h
    rename_i encoded hr
    exact .replies encoded rfl hr rfl rfl
  | limitError =>
    simp only [Reader.step] at h
    split at h <;> cases h
    rename_i hr
    obtain ⟨encoded, henc⟩ := Option.isSome_iff_exists.mp
      (hencode (.error "rate_limited" "message rate limit exceeded"))
    simp only [Reader.limitError, henc]
    exact .limitError encoded rfl hr henc ⟨_, rfl⟩ rfl
  | limitClose =>
    simp only [Reader.step] at h
    split at h <;> cases h
    rename_i e hr
    exact .limitClose rfl ⟨e, hr⟩ ⟨_, _, rfl⟩ rfl
  | idleTimeout =>
    simp only [Reader.step] at h
    split at h
    · rename_i hr
      split at h <;> cases h
      exact .rests rfl (by rw [hr]; rfl) rfl (apart_intake.trySend w i _)
    · cases h

end

/-! ### The number of the frame -/

/-- A reader counts the frames it reads. -/
theorem frames_step {a : ReaderAct} (h : Reader.step w i c a = some r) :
    r.2.frames = c.frameAt a := by
  cases a with
  | frame f =>
    simp only [Reader.step] at h
    split at h <;> cases h
    exact frames_frame f
  | tenantRate =>
    simp only [Reader.step] at h
    split at h <;> cases h
    simp only [Reader.tenantRate]
    split
    · exact frames_sendError _ _ _
    · exact frames_handle _
  | locate =>
    simp only [Reader.step] at h
    split at h <;> cases h
    unfold Reader.locate
    split <;> rfl
  | direct =>
    simp only [Reader.step] at h
    split at h <;> cases h
    simp only [Reader.direct]
    split
    · exact frames_sendError _ _ _
    · rfl
  | limitError =>
    simp only [Reader.step] at h
    split at h <;> cases h
    simp only [Reader.limitError]
    split <;> rfl
  | start | send | reply | limitClose =>
    simp only [Reader.step] at h
    split at h <;> cases h
    rfl
  | idleTimeout =>
    simp only [Reader.step] at h
    split at h
    · split at h <;> cases h
      rfl
    · cases h

/-- The supervisor aborts a reader between two frames. -/
theorem supervise_reader {a : SuperviseAct} (h : Supervise.step w i c a = some r) :
    r.2.reader = c.reader ∨ c.reader.isResting = true ∧ r.2.reader.isResting = true := by
  cases a with
  | cancel t =>
    simp only [Supervise.step] at h
    split at h
    · split at h
      · cases t with
        | reader =>
          simp only [Supervise.cancel] at h
          split at h <;> cases h
          all_goals
            rename_i hr
            exact .inr ⟨by rw [hr]; rfl, rfl⟩
        | writer =>
          simp only [Supervise.cancel] at h
          split at h <;> cases h
          all_goals exact .inl rfl
        | fanout =>
          simp only [Supervise.cancel] at h
          split at h <;> cases h
          exact .inl rfl
      · cases h
    · cases h
  | select t | unregisterGet =>
    simp only [Supervise.step, Option.ite_none_right_eq_some, Option.some.injEq] at h
    obtain ⟨-, rfl⟩ := h
    exact .inl rfl
  | join =>
    simp only [Supervise.step] at h
    split at h
    · split at h <;> cases h
      exact .inl rfl
    · cases h
  | unregisterRemove | close =>
    simp only [Supervise.step] at h
    split at h <;> cases h
    exact .inl rfl

/-- What the other tasks of a connection leave of its reader: they start it, and they cancel it while
    it rests. -/
theorem reader_elsewhere {a : TaskAct} (hc : c.Shaped) (h : Session.step w i c a = some r)
    (ha : ∀ b, a ≠ .reader b) : r.2.frames = c.frames ∧
      (r.2.reader = c.reader ∨ c.reader.isResting = true ∧ r.2.reader.isResting = true) := by
  cases a with
  | handshake b =>
    have hf := Handshake.step_framed h
    exact ⟨hf.frames, .inl hf.reader⟩
  | writer b =>
    have hf := Writer.step_framed h
    exact ⟨hf.frames, .inl hf.reader⟩
  | fanout b =>
    have hf := Fanout.step_framed h
    exact ⟨hf.frames, .inl hf.reader⟩
  | setup b =>
    refine ⟨(Setup.step_framed h).frames, ?_⟩
    have hoff := setup_reader hc h
    rcases (setup_tasks h).2.2 with hr | hr
    · exact .inl hr
    · exact .inr ⟨by rw [hoff]; rfl, by rw [hr]; rfl⟩
  | supervise b => exact ⟨(Supervise.step_framed h).frames, supervise_reader h⟩
  | reader b => exact absurd rfl (ha b)
  | call b => cases h

end WsServer
