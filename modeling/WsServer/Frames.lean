import WsServer.Views

/-! What each kind of step leaves alone. Of a session, the `Ticket` is written by the handshake only
    and the `Seat` by the set-up only; the stage belongs to handshake, set-up and supervisor, and each
    of the three tasks writes its own locals. The invariants of the later modules use these lemmas and
    look into a step function only where it does what they are about. -/

namespace WsServer

open Lib

variable {E : Ext}

structure Ticket where
  ip : IpAddr
  query : WsQuery
  identity : AuthIdentity
  ipPermit : Bool
  permit : Bool
  tenantPermit : Bool

structure Seat where
  topicKey : String
  chan : ℕ
  connectionId : UInt64
  subMark : ℕ

namespace Session

def ticket (c : Session E) : Ticket :=
  { ip := c.ip, query := c.query, identity := c.identity, ipPermit := c.ipPermit,
    permit := c.permit, tenantPermit := c.tenantPermit }

def seat (c : Session E) : Seat :=
  { topicKey := c.topicKey, chan := c.chan, connectionId := c.connectionId, subMark := c.subMark }

end Session

variable {w : World E} {i : ℕ} {c : Session E} {r : World E × Session E}

namespace Writer

/-- A writer takes from its own queue and touches its own locals. -/
structure Framed (w : World E) (i : ℕ) (c : Session E) (r : World E × Session E) : Prop where
  books : r.1.books = w.books
  wiring : r.1.wiring = w.wiring
  queues : ∀ j, j ≠ i → r.1.queues j = w.queues j
  placed : (r.1.queues i).placed = (w.queues i).placed
  ticket : r.2.ticket = c.ticket
  seat : r.2.seat = c.seat
  stage : r.2.stage = c.stage
  fanout : r.2.fanout = c.fanout
  passed : r.2.passed = c.passed
  reader : r.2.reader = c.reader
  frames : r.2.frames = c.frames

theorem start_framed : Framed w i c (start w i c) := by
  simp only [start]
  split <;> constructor <;> first | rfl | simp +contextual

theorem pinged_framed (b : Bool) : Framed w i c (pinged w i c b) := by
  unfold pinged
  split <;> constructor <;> first | rfl | simp +contextual

theorem wrote_framed (x : Item E) (b : Bool) : Framed w i c (wrote w i c x b) := by
  unfold wrote
  split <;> constructor <;> first | rfl | simp +contextual

theorem step_framed {a : WriterAct} (h : step w i c a = some r) : Framed w i c r := by
  cases a with
  | start =>
    simp only [step] at h
    split at h
    · cases h; exact start_framed
    · cases h
  | beat =>
    simp only [step] at h
    split at h
    · split at h
      · cases h; constructor <;> first | rfl | exact fun _ _ => rfl
      · cases h
    · cases h
  | pinged b =>
    simp only [step] at h
    split at h
    · cases h; exact pinged_framed b
    · cases h
  | pop =>
    simp only [step] at h
    split at h
    · rw [Option.map_eq_some_iff] at h
      obtain ⟨⟨x, q⟩, hq, rfl⟩ := h
      have hplaced : q.placed = (w.queues i).placed := by rw [(Queue.recv_some hq).2]
      constructor <;> first | rfl | simp +contextual [hplaced]
    · cases h
  | wrote b =>
    simp only [step] at h
    split at h
    · cases h; exact wrote_framed _ b
    · cases h

end Writer

namespace Fanout

/-- A fanout touches its own queue, its topic channel and its own locals. -/
structure Framed (w : World E) (i : ℕ) (c : Session E) (r : World E × Session E) : Prop where
  books : r.1.books = w.books
  queues : ∀ j, j ≠ i → r.1.queues j = w.queues j
  own : World.Grew w r.1 i fun x => ∃ seq, x.source = .topic seq
  ticket : r.2.ticket = c.ticket
  seat : r.2.seat = c.seat
  stage : r.2.stage = c.stage
  writer : r.2.writer = c.writer
  written : r.2.written = c.written
  reader : r.2.reader = c.reader
  frames : r.2.frames = c.frames

theorem recv_framed (h : recv w i c = some r) : Framed w i c r := by
  unfold recv at h
  split at h
  · cases h
  · split at h
    · cases h
    · cases h; exact ⟨rfl, fun _ _ => rfl, Or.inl rfl, rfl, rfl, rfl, rfl, rfl, rfl, rfl⟩
    · cases h
      exact ⟨World.books_withMetrics _ fun _ => rfl, fun _ _ => rfl, Or.inl rfl, rfl, rfl, rfl, rfl,
        rfl, rfl, rfl⟩

theorem forward_framed (m : Sent E) : Framed w i c (forward w i c m) := by
  have hown := ((World.grew_trySend w i ⟨.binary m.bytes, .topic m.seq⟩ i).mono
    (Q := fun x => ∃ seq, x.source = .topic seq) (by rintro x ⟨-, rfl⟩; exact ⟨_, rfl⟩)).congr
    (World.queues_sendEncoded w i m.bytes (.topic m.seq))
  have hother : ∀ j, j ≠ i → (w.sendEncoded i m.bytes (.topic m.seq)).2.queues j = w.queues j := by
    rintro j hj
    rw [World.queues_sendEncoded, World.queues_trySend_ne w _ hj]
  simp only [forward]
  split
  · exact ⟨World.books_sendEncoded w i _ _, hother, hown, rfl, rfl, rfl, rfl, rfl, rfl, rfl⟩
  · exact ⟨World.books_sendEncoded w i _ _, hother, hown, rfl, rfl, rfl, rfl, rfl, rfl, rfl⟩

theorem step_framed {a : FanoutAct} (h : step w i c a = some r) : Framed w i c r := by
  cases a with
  | recv =>
    simp only [step] at h
    split at h
    · exact recv_framed h
    · cases h
  | forward =>
    simp only [step] at h
    split at h
    · cases h; exact forward_framed _
    · cases h

end Fanout

/-- Sent by the reader of the very connection. -/
def Source.isOwn : Source → Bool
  | .reply | .pong | .close => true
  | _ => false

namespace Reader

/-- The queue that the next direct message of a session goes to. -/
def directTarget (w : World E) (c : Session E) : ReaderAct → Option ℕ
  | .direct =>
    match c.reader with
    | .directing target _ => w.directTo target c.identity.tenantId
    | _ => none
  | _ => none

/-- What a reader leaves of its session. -/
structure Kept (c c' : Session E) : Prop where
  ticket : c'.ticket = c.ticket
  seat : c'.seat = c.seat
  stage : c'.stage = c.stage
  writer : c'.writer = c.writer
  written : c'.written = c.written
  fanout : c'.fanout = c.fanout
  passed : c'.passed = c.passed

/-- A reader writes to its own queue, or a direct message to the queue of the target. -/
structure Framed (w : World E) (i : ℕ) (c : Session E) (a : ReaderAct)
    (r : World E × Session E) : Prop where
  books : r.1.books = w.books
  queues : ∀ j, World.Grew w r.1 j fun x => (j = i ∧ x.source.isOwn = true) ∨
    (directTarget w c a = some j ∧ x.source = .direct c.identity)
  kept : Kept c r.2

theorem Kept.refl (c : Session E) : Kept c c := ⟨rfl, rfl, rfl, rfl, rfl, rfl, rfl⟩

theorem Kept.nextRound {c c' : Session E} (h : Kept c c') (now : ℕ) : Kept c (c'.nextRound now) :=
  ⟨h.ticket, h.seat, h.stage, h.writer, h.written, h.fanout, h.passed⟩

theorem Kept.sendError {c c' : Session E} (h : Kept c c') (now : ℕ) (code message : String) :
    Kept c (c'.sendError now code message) := by
  unfold Session.sendError
  split
  · exact ⟨h.ticket, h.seat, h.stage, h.writer, h.written, h.fanout, h.passed⟩
  · exact h.nextRound now

/-- A step of the reader that touches no queue. -/
theorem Framed.quiet {a : ReaderAct} (hb : r.1.books = w.books) (hq : r.1.queues = w.queues)
    (hk : Kept c r.2) : Framed w i c a r :=
  ⟨hb, fun j => Or.inl (by rw [hq]), hk⟩

theorem gate_quiet (tooLarge : Bool) (f : Inbound) :
    (gate w c tooLarge f).1.books = w.books ∧ (gate w c tooLarge f).1.queues = w.queues ∧
      Kept c (gate w c tooLarge f).2 := by
  have hin : (w.withMetrics Metrics.messageIn).books = w.books :=
    World.books_withMetrics w fun _ => rfl
  simp only [gate]
  split
  · exact ⟨(World.books_withMetrics _ fun _ => rfl).trans hin, rfl, ⟨rfl, rfl, rfl, rfl, rfl, rfl, rfl⟩⟩
  · split
    · refine ⟨(World.books_withMetrics _ fun _ => rfl).trans hin, rfl, ?_⟩
      apply Kept.sendError
      exact ⟨rfl, rfl, rfl, rfl, rfl, rfl, rfl⟩
    · exact ⟨hin, rfl, ⟨rfl, rfl, rfl, rfl, rfl, rfl, rfl⟩⟩

theorem frame_framed (f : Frame) (a : ReaderAct) : Framed w i c a (frame w i c f) := by
  cases f with
  | text t =>
    obtain ⟨hb, hq, hk⟩ := gate_quiet (w := w) (c := c)
      (w.app.config.maxTextBytes < t.utf8ByteSize) (.text t)
    exact .quiet hb hq hk
  | binary raw =>
    obtain ⟨hb, hq, hk⟩ := gate_quiet (w := w) (c := c) false (.binary raw)
    exact .quiet hb hq hk
  | ping payload =>
    refine ⟨World.books_trySend w i _, fun j => ?_, (Kept.refl c).nextRound w.now⟩
    refine (World.grew_trySend w i _ j).mono ?_
    rintro x ⟨rfl, rfl⟩
    exact Or.inl ⟨rfl, rfl⟩
  | pong => exact .quiet rfl rfl ((Kept.refl c).nextRound w.now)
  | close => exact .quiet rfl rfl ⟨rfl, rfl, rfl, rfl, rfl, rfl, rfl⟩
  | eof => exact .quiet rfl rfl ⟨rfl, rfl, rfl, rfl, rfl, rfl, rfl⟩
  | failure => exact .quiet rfl rfl ⟨rfl, rfl, rfl, rfl, rfl, rfl, rfl⟩

theorem frame_wiring (f : Frame) : (frame w i c f).1.wiring = w.wiring := by
  have hgate : ∀ tooLarge g, (gate w c tooLarge g).1.wiring = w.wiring := by
    intro tooLarge g
    simp only [gate]
    split
    · rfl
    · split <;> rfl
  cases f with
  | text t => exact hgate _ _
  | binary raw => exact hgate _ _
  | ping payload => exact World.wiring_trySend w i _
  | pong | close | eof | failure => rfl

/-- The local part of handling an event counts at most a protocol error. -/
theorem handleClientEvent_quiet (event : ClientEvent E.Value) :
    (handleClientEvent w c event).1.books = w.books ∧
      (handleClientEvent w c event).1.queues = w.queues ∧
      (handleClientEvent w c event).1.wiring = w.wiring ∧
      Kept c (handleClientEvent w c event).2 := by
  have herr : (w.withMetrics Metrics.protocolError).books = w.books :=
    World.books_withMetrics w fun _ => rfl
  cases event with
  | publish topic requestId payload =>
    simp only [handleClientEvent]
    split
    · exact ⟨rfl, rfl, rfl, ⟨rfl, rfl, rfl, rfl, rfl, rfl, rfl⟩⟩
    · exact ⟨herr, rfl, rfl, (Kept.refl c).sendError _ _ _⟩
  | direct target requestId payload =>
    simp only [handleClientEvent]
    split
    · exact ⟨rfl, rfl, rfl, ⟨rfl, rfl, rfl, rfl, rfl, rfl, rfl⟩⟩
    · exact ⟨herr, rfl, rfl, (Kept.refl c).sendError _ _ _⟩
  | ping requestId payload =>
    simp only [handleClientEvent]
    split
    · exact ⟨rfl, rfl, rfl, ⟨rfl, rfl, rfl, rfl, rfl, rfl, rfl⟩⟩
    · exact ⟨rfl, rfl, rfl, (Kept.refl c).sendError _ _ _⟩

theorem handle_quiet (f : Inbound) :
    (handle w c f).1.books = w.books ∧ (handle w c f).1.queues = w.queues ∧
      (handle w c f).1.wiring = w.wiring ∧ Kept c (handle w c f).2 := by
  have herr : (w.withMetrics Metrics.protocolError).books = w.books :=
    World.books_withMetrics w fun _ => rfl
  cases f with
  | text t =>
    simp only [handle]
    split
    · exact handleClientEvent_quiet _
    · exact ⟨herr, rfl, rfl, (Kept.refl c).sendError _ _ _⟩
  | binary raw =>
    simp only [handle]
    split
    · exact handleClientEvent_quiet _
    · exact ⟨herr, rfl, rfl, (Kept.refl c).sendError _ _ _⟩

/-- The tenant bucket is the only thing the rate check writes. -/
theorem checkTenantRate_spec (app : AppState E) (now : ℕ) (tenantId : String) :
    ∃ limits, (app.checkTenantRate now tenantId).2 = { app with tenantRateLimits := limits } := by
  unfold AppState.checkTenantRate
  split
  · exact ⟨_, rfl⟩
  · exact ⟨app.tenantRateLimits, rfl⟩

theorem tenantRate_quiet (f : Inbound) :
    (tenantRate w c f).1.books = w.books ∧ (tenantRate w c f).1.queues = w.queues ∧
      (tenantRate w c f).1.wiring = w.wiring ∧ Kept c (tenantRate w c f).2 := by
  obtain ⟨limits, hl⟩ := checkTenantRate_spec w.app w.now c.identity.tenantId
  simp only [tenantRate, hl]
  split
  · exact ⟨World.books_withMetrics _ fun _ => rfl, rfl, rfl, (Kept.refl c).sendError _ _ _⟩
  · exact handle_quiet f

theorem limitError_framed (a : ReaderAct) : Framed w i c a (limitError w i c) := by
  simp only [limitError]
  split
  · refine ⟨World.books_sendEncoded w i _ _, fun j => ?_, ⟨rfl, rfl, rfl, rfl, rfl, rfl, rfl⟩⟩
    refine ((World.grew_trySend w i _ j).congr (World.queues_sendEncoded w i _ _)).mono ?_
    rintro x ⟨rfl, rfl⟩
    exact Or.inl ⟨rfl, rfl⟩
  · exact .quiet rfl rfl ⟨rfl, rfl, rfl, rfl, rfl, rfl, rfl⟩

theorem direct_framed {target : String} {encoded : E.Bytes}
    (hr : c.reader = .directing target encoded) :
    Framed w i c .direct (direct w c target encoded) := by
  have ht : directTarget w c .direct = w.directTo target c.identity.tenantId := by
    simp [directTarget, hr]
  have hq : (direct w c target encoded).1.queues =
      (w.sendToClient target c.identity.tenantId encoded c.identity).2.queues := by
    simp only [direct]; split <;> rfl
  refine ⟨?_, fun j => ?_, ?_⟩
  · simp only [direct]
    split
    · exact (World.books_withMetrics _ fun _ => rfl).trans (World.books_sendToClient w _ _ _ _)
    · exact World.books_sendToClient w _ _ _ _
  · refine ((World.grew_sendToClient w _ _ _ _ j).congr hq).mono ?_
    rintro x ⟨hj, rfl⟩
    exact Or.inr ⟨ht.trans hj, rfl⟩
  · simp only [direct]
    split
    · exact (Kept.refl c).sendError _ _ _
    · exact (Kept.refl c).nextRound _

/-- A send of the reader into its own queue. -/
theorem own_framed {a : ReaderAct} {x : Item E} (hx : x.source.isOwn = true)
    (hb : r.1.books = w.books) (hq : r.1.queues = (w.trySend i x).2.queues) (hk : Kept c r.2) :
    Framed w i c a r := by
  refine ⟨hb, fun j => ?_, hk⟩
  refine ((World.grew_trySend w i x j).congr hq).mono ?_
  rintro y ⟨rfl, rfl⟩
  exact Or.inl ⟨rfl, hx⟩

theorem step_framed {a : ReaderAct} (h : step w i c a = some r) : Framed w i c a r := by
  cases a with
  | start =>
    simp only [step] at h
    split at h
    · cases h; exact .quiet rfl rfl ⟨rfl, rfl, rfl, rfl, rfl, rfl, rfl⟩
    · cases h
  | frame f =>
    simp only [step] at h
    split at h
    · cases h
      obtain ⟨hb, hq, hk⟩ := frame_framed (w := w) (i := i) (c := { c with frames := c.frames + 1 })
        f (.frame f)
      exact ⟨hb, hq, ⟨hk.ticket, hk.seat, hk.stage, hk.writer, hk.written, hk.fanout, hk.passed⟩⟩
    · cases h
  | tenantRate =>
    simp only [step] at h
    split at h
    · cases h
      obtain ⟨hb, hq, -, hk⟩ := tenantRate_quiet (w := w) (c := c) _
      exact .quiet hb hq hk
    · cases h
  | locate =>
    simp only [step] at h
    split at h
    · cases h
      unfold locate
      split
      · rename_i hs
        exact .quiet (World.books_topicSender hs) (World.queues_topicSender hs)
          ⟨rfl, rfl, rfl, rfl, rfl, rfl, rfl⟩
      · exact .quiet rfl rfl ⟨rfl, rfl, rfl, rfl, rfl, rfl, rfl⟩
    · cases h
  | send =>
    simp only [step] at h
    split at h
    · cases h
      simp only [send]
      split
      · exact .quiet ((World.books_withMetrics _ fun _ => rfl).trans (World.books_publish w _ _))
          (World.queues_publish w _ _) ((Kept.refl c).nextRound _)
      · exact .quiet (World.books_publish w _ _) (World.queues_publish w _ _)
          ((Kept.refl c).nextRound _)
    · cases h
  | direct =>
    simp only [step] at h
    split at h
    · rename_i hr
      cases h; exact direct_framed hr
    · cases h
  | reply =>
    simp only [step] at h
    split at h
    · cases h
      exact own_framed rfl (World.books_sendEncoded w i _ _) (World.queues_sendEncoded w i _ _)
        ((Kept.refl c).nextRound _)
    · cases h
  | limitError =>
    simp only [step] at h
    split at h
    · cases h; exact limitError_framed _
    · cases h
  | limitClose =>
    simp only [step] at h
    split at h
    · cases h
      exact own_framed rfl (World.books_trySend w i _) rfl ⟨rfl, rfl, rfl, rfl, rfl, rfl, rfl⟩
    · cases h
  | idleTimeout =>
    simp only [step] at h
    split at h
    · split at h
      · cases h
        exact own_framed rfl (World.books_trySend w i _) rfl ⟨rfl, rfl, rfl, rfl, rfl, rfl, rfl⟩
      · cases h
    · cases h

end Reader

/-! ### Supervisor, set-up and handshake -/

namespace Supervise

/-- A supervisor touches its own queue, its topic receiver, and at the end the registry. -/
structure Framed (w : World E) (i : ℕ) (c : Session E) (r : World E × Session E) : Prop where
  pools : r.1.pools = w.pools
  queues : ∀ j, j ≠ i → r.1.queues j = w.queues j
  placed : (r.1.queues i).placed = (w.queues i).placed
  ticket : r.2.ticket = c.ticket
  seat : r.2.seat = c.seat
  written : r.2.written = c.written
  passed : r.2.passed = c.passed
  frames : r.2.frames = c.frames

theorem cancel_spec {t : ConnectionTask} (h : cancel w i c t = some r) :
    Framed w i c r ∧ r.1.registry = w.registry ∧ r.2.stage = c.stage := by
  cases t with
  | reader =>
    simp only [cancel] at h
    split at h <;> cases h
    all_goals exact ⟨⟨rfl, fun _ _ => rfl, rfl, rfl, rfl, rfl, rfl, rfl⟩, rfl, rfl⟩
  | writer =>
    simp only [cancel] at h
    split at h <;> cases h
    all_goals
      refine ⟨⟨rfl, fun j hj => ?_, ?_, rfl, rfl, rfl, rfl, rfl⟩, rfl, rfl⟩
      · simp [hj]
      · simp
  | fanout =>
    simp only [cancel] at h
    split at h <;> cases h
    all_goals exact ⟨⟨rfl, fun _ _ => rfl, rfl, rfl, rfl, rfl, rfl, rfl⟩, rfl, rfl⟩

theorem step_framed {a : SuperviseAct} (h : step w i c a = some r) : Framed w i c r := by
  cases a with
  | select t =>
    simp only [step, Option.ite_none_right_eq_some, Option.some.injEq] at h
    obtain ⟨-, rfl⟩ := h
    exact ⟨rfl, fun _ _ => rfl, rfl, rfl, rfl, rfl, rfl, rfl⟩
  | cancel t =>
    simp only [step] at h
    split at h
    · split at h
      · exact (cancel_spec h).1
      · cases h
    · cases h
  | join =>
    simp only [step] at h
    split at h
    · split at h
      · cases h; exact ⟨rfl, fun _ _ => rfl, rfl, rfl, rfl, rfl, rfl, rfl⟩
      · cases h
    · cases h
  | unregisterGet =>
    simp only [step, Option.ite_none_right_eq_some, Option.some.injEq] at h
    obtain ⟨-, rfl⟩ := h
    exact ⟨rfl, fun _ _ => rfl, rfl, rfl, rfl, rfl, rfl, rfl⟩
  | unregisterRemove =>
    simp only [step] at h
    split at h
    · cases h
      simp only [unregisterRemove]
      split <;> exact ⟨rfl, fun _ _ => rfl, rfl, rfl, rfl, rfl, rfl, rfl⟩
    · cases h
  | close =>
    simp only [step] at h
    split at h
    · cases h; exact ⟨rfl, fun _ _ => rfl, rfl, rfl, rfl, rfl, rfl, rfl⟩
    · cases h

end Supervise

namespace Setup

/-- The set-up touches its own queue, the topics, and the registry. -/
structure Framed (w : World E) (i : ℕ) (c : Session E) (r : World E × Session E) : Prop where
  pools : r.1.pools = w.pools
  queues : ∀ j, j ≠ i → r.1.queues j = w.queues j
  ticket : r.2.ticket = c.ticket
  written : r.2.written = c.written
  passed : r.2.passed = c.passed
  frames : r.2.frames = c.frames

theorem locate_framed : Framed w i c (locate w i c) := by
  unfold locate
  split
  · rename_i h
    refine ⟨congrArg Books.pools (World.books_topicSender h), fun j _ => ?_, rfl, rfl, rfl, rfl⟩
    exact congrFun (World.queues_topicSender h) j
  · exact ⟨rfl, fun j hj => by simp [hj], rfl, rfl, rfl, rfl⟩

theorem ready_framed : Framed w i c (ready w i c) := by
  unfold ready
  split
  · refine ⟨congrArg Books.pools (World.books_sendEncoded w i _ _), fun j hj => ?_, rfl, rfl, rfl,
      rfl⟩
    rw [World.queues_sendEncoded, World.queues_trySend_ne w _ hj]
  · exact ⟨rfl, fun j hj => by simp [hj], rfl, rfl, rfl, rfl⟩

theorem step_framed {a : SetupAct} (h : step w i c a = some r) : Framed w i c r := by
  cases a <;> simp only [step, Option.ite_none_right_eq_some, Option.some.injEq] at h <;>
    obtain ⟨-, rfl⟩ := h
  case openQueue =>
    simp only [openQueue]
    split
    · exact ⟨rfl, fun _ _ => rfl, rfl, rfl, rfl, rfl⟩
    · exact ⟨rfl, fun j hj => by simp [hj], rfl, rfl, rfl, rfl⟩
  case locate => exact locate_framed
  case ready => exact ready_framed
  all_goals exact ⟨rfl, fun _ _ => rfl, rfl, rfl, rfl, rfl⟩

end Setup

/-- The request is still in `ws_handler`. -/
def Stage.isHandshake : Stage → Bool
  | .arrived | .ipAdmitted | .permitted | .authenticated | .admitted | .refusing _ | .counted _
  | .refused _ | .upgradeFailed | .upgraded => true
  | _ => false

namespace Handshake

/-- A handshake touches the pools, the tickets and nothing else. -/
structure Framed (w : World E) (c : Session E) (r : World E × Session E) : Prop where
  registry : r.1.registry = w.registry
  wiring : r.1.wiring = w.wiring
  queues : r.1.queues = w.queues
  config : r.1.app.config = w.app.config
  auth : r.1.app.auth = w.app.auth
  now : r.1.now = w.now
  ip : r.2.ip = c.ip
  query : r.2.query = c.query
  seat : r.2.seat = c.seat
  writer : r.2.writer = c.writer
  fanout : r.2.fanout = c.fanout
  reader : r.2.reader = c.reader
  written : r.2.written = c.written
  passed : r.2.passed = c.passed
  frames : r.2.frames = c.frames

theorem acquireTenantPermit_spec (app : AppState E) (tenantId : String) :
    ∃ limits, (app.acquireTenantPermit tenantId).2 = { app with tenantLimits := limits } := by
  simp only [AppState.acquireTenantPermit]
  split
  · split <;> exact ⟨_, rfl⟩
  · exact ⟨app.tenantLimits, rfl⟩

theorem releaseTenantPermit_spec (app : AppState E) (tenantId : String) :
    ∃ limits, app.releaseTenantPermit tenantId = { app with tenantLimits := limits } := by
  unfold AppState.releaseTenantPermit
  split
  · split
    · exact ⟨_, rfl⟩
    · exact ⟨app.tenantLimits, rfl⟩
  · exact ⟨app.tenantLimits, rfl⟩

theorem ipAdmission_framed {order : List IpAddr} (h : ipAdmission order w c = some r) :
    Framed w c r := by
  simp only [ipAdmission] at h
  split at h
  · cases h; constructor <;> rfl
  · split at h
    · split at h <;> cases h <;> constructor <;> rfl
    · cases h

theorem authenticate_framed : Framed w c (authenticate w c) := by
  unfold authenticate
  split <;> constructor <;> rfl

theorem globalPermit_framed : Framed w c (globalPermit w c) := by
  unfold globalPermit
  split <;> constructor <;> rfl

theorem tenantPermit_framed : Framed w c (tenantPermit w c) := by
  obtain ⟨limits, hl⟩ := acquireTenantPermit_spec w.app c.identity.tenantId
  unfold tenantPermit
  split <;> rename_i app h <;> rw [h] at hl <;> dsimp only at hl <;> subst hl <;>
    constructor <;> rfl

theorem dropTenant_framed : Framed w c (dropTenant w c) := by
  obtain ⟨limits, hl⟩ := releaseTenantPermit_spec w.app c.identity.tenantId
  rw [dropTenant, hl]
  constructor <;> rfl

theorem step_framed {a : HandshakeAct} (h : step w c a = some r) : Framed w c r := by
  cases a with
  | ipAdmission order =>
    simp only [step, Option.ite_none_right_eq_some] at h
    exact ipAdmission_framed h.2
  | countKind =>
    simp only [step] at h
    split at h
    · cases h; constructor <;> rfl
    · cases h
  | countRejected =>
    simp only [step] at h
    split at h
    · cases h; constructor <;> rfl
    · cases h
  | globalPermit =>
    simp only [step, Option.ite_none_right_eq_some, Option.some.injEq] at h
    obtain ⟨-, rfl⟩ := h
    exact globalPermit_framed
  | authenticate =>
    simp only [step, Option.ite_none_right_eq_some, Option.some.injEq] at h
    obtain ⟨-, rfl⟩ := h
    exact authenticate_framed
  | tenantPermit =>
    simp only [step, Option.ite_none_right_eq_some, Option.some.injEq] at h
    obtain ⟨-, rfl⟩ := h
    exact tenantPermit_framed
  | dropTenant =>
    simp only [step, Option.ite_none_right_eq_some, Option.some.injEq] at h
    obtain ⟨-, rfl⟩ := h
    exact dropTenant_framed
  | upgrade | dropIp | dropGlobal =>
    simp only [step, Option.ite_none_right_eq_some, Option.some.injEq] at h
    obtain ⟨-, rfl⟩ := h
    constructor <;> rfl

/-- A handshake moves between its own stages, or drops a permit after everything else. -/
theorem stage_step {a : HandshakeAct} (h : step w c a = some r) :
    (c.stage.isHandshake = true ∧ r.2.stage.isHandshake = true) ∨
      (r.2.stage = c.stage ∧ r.2.identity = c.identity) := by
  cases a with
  | ipAdmission order =>
    simp only [step, ipAdmission, Option.ite_none_right_eq_some] at h
    obtain ⟨hs, h⟩ := h
    refine Or.inl ⟨by rw [hs]; rfl, ?_⟩
    split at h
    · cases h; rfl
    · split at h
      · split at h <;> cases h <;> rfl
      · cases h
  | globalPermit =>
    simp only [step, Option.ite_none_right_eq_some, Option.some.injEq] at h
    obtain ⟨hs, rfl⟩ := h
    refine Or.inl ⟨by rw [hs]; rfl, ?_⟩
    unfold globalPermit
    split <;> rfl
  | authenticate =>
    simp only [step, Option.ite_none_right_eq_some, Option.some.injEq] at h
    obtain ⟨hs, rfl⟩ := h
    refine Or.inl ⟨by rw [hs]; rfl, ?_⟩
    unfold authenticate
    split <;> rfl
  | tenantPermit =>
    simp only [step, Option.ite_none_right_eq_some, Option.some.injEq] at h
    obtain ⟨hs, rfl⟩ := h
    refine Or.inl ⟨by rw [hs]; rfl, ?_⟩
    unfold tenantPermit
    split <;> rfl
  | upgrade succeeds =>
    simp only [step, Option.ite_none_right_eq_some, Option.some.injEq] at h
    obtain ⟨hs, rfl⟩ := h
    refine Or.inl ⟨by rw [hs]; rfl, ?_⟩
    cases succeeds <;> rfl
  | countKind | countRejected =>
    simp only [step] at h
    split at h <;> cases h
    rename_i hs
    exact Or.inl ⟨by rw [hs]; rfl, rfl⟩
  | dropIp | dropGlobal | dropTenant =>
    simp only [step, Option.ite_none_right_eq_some, Option.some.injEq] at h
    obtain ⟨-, rfl⟩ := h
    exact Or.inr ⟨rfl, rfl⟩

end Handshake

/-! ### HTTP calls -/

namespace Api

/-- The queue that the direct message of a call goes to. -/
def directTarget (w : World E) (c : Call E) : CallAct → Option ℕ
  | .direct =>
    match c.pc with
    | .directing target _ => w.directTo target c.identity.tenantId
    | _ => none
  | _ => none

/-- A call touches the topics, and the queue of the client it sends to. -/
structure Framed (w : World E) (c : Call E) (a : CallAct) (r : World E × Call E) : Prop where
  books : r.1.books = w.books
  queues : ∀ j, World.Grew w r.1 j fun x =>
    directTarget w c a = some j ∧ x.source = .direct c.identity

variable {d : Call E} {s : World E × Call E}

theorem deliver_framed {target : String} {encoded : E.Bytes}
    (hp : d.pc = .directing target encoded) : Framed w d .direct (deliver w d target encoded) := by
  have ht : directTarget w d .direct = w.directTo target d.identity.tenantId := by
    simp [directTarget, hp]
  have hq : (deliver w d target encoded).1.queues =
      (w.sendToClient target d.identity.tenantId encoded d.identity).2.queues := by
    simp only [deliver]; split <;> rfl
  refine ⟨?_, fun j => ?_⟩
  · simp only [deliver]
    split <;> exact (World.books_withMetrics _ fun _ => rfl).trans (World.books_sendToClient w _ _ _ _)
  · refine ((World.grew_sendToClient w _ _ _ _ j).congr hq).mono ?_
    rintro x ⟨hj, rfl⟩
    exact ⟨ht.trans hj, rfl⟩

theorem step_framed {a : CallAct} (h : step w i d a = some s) : Framed w d a s := by
  cases a with
  | resolve =>
    simp only [step] at h
    split at h
    · cases h; exact ⟨rfl, fun _ => Or.inl rfl⟩
    · cases h
  | locate =>
    simp only [step] at h
    split at h
    · cases h
      unfold locate
      split
      · rename_i hs
        exact ⟨World.books_topicSender hs,
          fun j => Or.inl (congrFun (World.queues_topicSender hs) j)⟩
      · exact ⟨rfl, fun _ => Or.inl rfl⟩
    · cases h
  | send =>
    simp only [step] at h
    split at h
    · cases h
      refine ⟨?_, fun j => Or.inl (congrFun (World.queues_publish w _ _) j)⟩
      refine (World.books_withMetrics _ ?_).trans (World.books_publish w _ _)
      split
      · exact fun _ => rfl
      · have hout : World.Neutral Metrics.messageOut := fun _ => rfl
        exact World.neutral_iterate hout _
    · cases h
  | direct =>
    simp only [step] at h
    split at h
    · rename_i hp
      cases h; exact deliver_framed hp
    · cases h

end Api

/-! ### Any task -/

/-- The queue that the next step of a task sends a direct message to. -/
def Task.directTarget (w : World E) : Task E → TaskAct → Option ℕ
  | .ws c, .reader a => Reader.directTarget w c a
  | .http c, .call a => Api.directTarget w c a
  | _, _ => none

/-- Into the queue of another connection only direct messages go. -/
theorem queue_other {l : Task E} {a : TaskAct} {w' : World E} {l' : Task E} {j : ℕ} (hne : j ≠ i)
    (h : Task.step w i l a = some (w', l')) :
    World.Grew w w' j fun x => l.directTarget w a = some j ∧ ∃ sender, x.source = .direct sender := by
  cases l with
  | http d =>
    obtain ⟨d', b, rfl, rfl, hs⟩ := step_http h
    exact ((Api.step_framed hs).queues j).mono fun x hx => ⟨hx.1, _, hx.2⟩
  | ws c =>
    obtain ⟨c', rfl, hs⟩ := step_ws h
    cases a with
    | handshake b => exact Or.inl (congrFun (Handshake.step_framed hs).queues j)
    | setup b => exact Or.inl ((Setup.step_framed hs).queues j hne)
    | writer b => exact Or.inl ((Writer.step_framed hs).queues j hne)
    | fanout b => exact Or.inl ((Fanout.step_framed hs).queues j hne)
    | supervise b => exact Or.inl ((Supervise.step_framed hs).queues j hne)
    | call b => cases hs
    | reader b =>
      refine ((Reader.step_framed hs).queues j).mono ?_
      rintro x (⟨rfl, -⟩ | ⟨hj, hx⟩)
      · exact absurd rfl hne
      · exact ⟨hj, _, hx⟩

/-! ### The shape of a session -/

/-- How far `connection_loop` has come, counting only forward. -/
def Stage.rank : Stage → ℕ
  | .accepted => 1
  | .opened => 2
  | .located => 3
  | .subscribed => 4
  | .numbered => 5
  | .registered | .returned false | .closed false => 6
  | .readied => 7
  | .writerSpawned => 8
  | .fanoutSpawned => 9
  | .running => 10
  | .selected _ => 11
  | .joined => 12
  | .matched _ => 13
  | .returned true => 14
  | .closed true => 15
  | _ => 0

/-- Facts about a session alone: a task is off before it is spawned, a task that is off has left no
    trace, and the topic key is the one `handle_socket` computed. -/
structure Session.Shaped (c : Session E) : Prop where
  writer : c.stage.rank < 8 → c.writer = .off
  fanout : c.stage.rank < 9 → c.fanout = .off
  reader : c.stage.rank < 10 → c.reader = .off
  written : c.writer = .off → c.written = []
  passed : c.fanout = .off → c.passed = []
  topicKey : 1 ≤ c.stage.rank →
    c.topicKey = tenantTopic c.identity.tenantId (normalizeTopic c.query.topic)

/-- The topic key stays right while stage, seat and ticket are the same. -/
theorem Session.Shaped.topicKey_still {d : Session E} (h : c.Shaped) (hstage : d.stage = c.stage)
    (hseat : d.seat = c.seat) (hticket : d.ticket = c.ticket) :
    1 ≤ d.stage.rank → d.topicKey = tenantTopic d.identity.tenantId (normalizeTopic d.query.topic) := by
  have hkey : d.topicKey = c.topicKey := congrArg Seat.topicKey hseat
  have hidentity : d.identity = c.identity := congrArg Ticket.identity hticket
  have hquery : d.query = c.query := congrArg Ticket.query hticket
  rw [hstage, hkey, hidentity, hquery]
  exact h.topicKey

theorem rank_of_isHandshake {s : Stage} (h : s.isHandshake = true) : s.rank = 0 := by
  cases s <;> first | rfl | cases h

theorem shaped_arrive (ip : IpAddr) (query : WsQuery) :
    (Session.arrive (E := E) ip query).Shaped :=
  ⟨fun _ => rfl, fun _ => rfl, fun _ => rfl, fun _ => rfl, fun _ => rfl,
    fun h => absurd h (by simp [Session.arrive, Stage.rank])⟩

theorem shaped_handshake {a : HandshakeAct} (hc : c.Shaped) (h : Handshake.step w c a = some r) :
    r.2.Shaped := by
  have hf := Handshake.step_framed h
  have hkey : r.2.topicKey = c.topicKey := congrArg Seat.topicKey hf.seat
  have hwritten : r.2.writer = .off → r.2.written = [] := by
    rw [hf.writer, hf.written]; exact hc.written
  have hpassed : r.2.fanout = .off → r.2.passed = [] := by
    rw [hf.fanout, hf.passed]; exact hc.passed
  rcases Handshake.stage_step h with ⟨hb, hb'⟩ | ⟨hs, hid⟩
  · have h0 := rank_of_isHandshake hb
    have h0' := rank_of_isHandshake hb'
    exact ⟨fun _ => hf.writer.trans (hc.writer (by omega)),
      fun _ => hf.fanout.trans (hc.fanout (by omega)),
      fun _ => hf.reader.trans (hc.reader (by omega)), hwritten, hpassed,
      fun h => absurd h (by omega)⟩
  · refine ⟨?_, ?_, ?_, hwritten, hpassed, ?_⟩
    · rw [hs, hf.writer]; exact hc.writer
    · rw [hs, hf.fanout]; exact hc.fanout
    · rw [hs, hf.reader]; exact hc.reader
    · rw [hs, hkey, hid, hf.query]; exact hc.topicKey

theorem shaped_setup {a : SetupAct} (hc : c.Shaped) (h : Setup.step w i c a = some r) :
    r.2.Shaped := by
  have hw := hc.writer
  have hf := hc.fanout
  have hr := hc.reader
  have ht := hc.topicKey
  cases a <;> simp only [Setup.step, Option.ite_none_right_eq_some, Option.some.injEq] at h <;>
    obtain ⟨hs, rfl⟩ := h <;> rw [hs] at hw hf hr ht
  case accept =>
    exact ⟨fun _ => hw (by decide), fun _ => hf (by decide), fun _ => hr (by decide), hc.written,
      hc.passed, fun _ => rfl⟩
  case openQueue =>
    simp only [Setup.openQueue]
    split <;> exact ⟨fun _ => hw (by decide), fun _ => hf (by decide), fun _ => hr (by decide),
      hc.written, hc.passed, fun _ => ht (by decide)⟩
  case locate =>
    unfold Setup.locate
    split <;> exact ⟨fun _ => hw (by decide), fun _ => hf (by decide), fun _ => hr (by decide),
      hc.written, hc.passed, fun _ => ht (by decide)⟩
  case ready =>
    unfold Setup.ready
    split <;> exact ⟨fun _ => hw (by decide), fun _ => hf (by decide), fun _ => hr (by decide),
      hc.written, hc.passed, fun _ => ht (by decide)⟩
  case subscribe | number | register =>
    exact ⟨fun _ => hw (by decide), fun _ => hf (by decide), fun _ => hr (by decide), hc.written,
      hc.passed, fun _ => ht (by decide)⟩
  case spawnWriter =>
    exact ⟨fun h => absurd h (by simp [Stage.rank]), fun _ => hf (by decide),
      fun _ => hr (by decide), nofun,
      hc.passed, fun _ => ht (by decide)⟩
  case spawnFanout =>
    exact ⟨fun h => absurd h (by simp [Stage.rank]), fun h => absurd h (by simp [Stage.rank]),
      fun _ => hr (by decide),
      hc.written, nofun, fun _ => ht (by decide)⟩
  case spawnReader =>
    exact ⟨fun h => absurd h (by simp [Stage.rank]), fun h => absurd h (by simp [Stage.rank]),
      fun h => absurd h (by simp [Stage.rank]), hc.written, hc.passed, fun _ => ht (by decide)⟩

/-- A task that steps is on, before and after. -/
theorem writer_on {a : WriterAct} (h : Writer.step w i c a = some r) :
    c.writer ≠ .off ∧ r.2.writer ≠ .off := by
  refine ⟨fun hoff => by cases a <;> simp [Writer.step, hoff] at h, fun hoff => ?_⟩
  cases a with
  | start =>
    simp only [Writer.step] at h
    split at h <;> cases h
    simp only [Writer.start] at hoff
    split at hoff <;> cases hoff
  | beat =>
    simp only [Writer.step] at h
    split at h
    · split at h <;> cases h
      cases hoff
    · cases h
  | pinged b =>
    simp only [Writer.step] at h
    split at h <;> cases h
    simp only [Writer.pinged] at hoff
    split at hoff <;> cases hoff
  | pop =>
    simp only [Writer.step] at h
    split at h
    · rw [Option.map_eq_some_iff] at h
      obtain ⟨q, -, rfl⟩ := h
      cases hoff
    · cases h
  | wrote b =>
    simp only [Writer.step] at h
    split at h <;> cases h
    simp only [Writer.wrote] at hoff
    split at hoff <;> cases hoff

theorem fanout_on {a : FanoutAct} (h : Fanout.step w i c a = some r) :
    c.fanout ≠ .off ∧ r.2.fanout ≠ .off := by
  refine ⟨fun hoff => by cases a <;> simp [Fanout.step, hoff] at h, fun hoff => ?_⟩
  cases a with
  | recv =>
    simp only [Fanout.step] at h
    split at h
    · rename_i hw
      unfold Fanout.recv at h
      split at h
      · cases h
      · split at h <;> cases h
        · cases hoff
        · rw [hw] at hoff; cases hoff
    · cases h
  | forward =>
    simp only [Fanout.step] at h
    split at h
    · cases h
      simp only [Fanout.forward] at hoff
      split at hoff <;> cases hoff
    · cases h

theorem reader_on {a : ReaderAct} (h : Reader.step w i c a = some r) : c.reader ≠ .off := by
  rintro hoff
  cases a <;> simp [Reader.step, hoff] at h

/-- A supervisor leaves each task as it is or cancels it. -/
theorem supervise_tasks {a : SuperviseAct} (h : Supervise.step w i c a = some r) :
    (r.2.writer = c.writer ∨ r.2.writer = .cancelled) ∧
      (r.2.fanout = c.fanout ∨ r.2.fanout = .cancelled) ∧
      (r.2.reader = c.reader ∨ r.2.reader = .cancelled) := by
  cases a with
  | select t =>
    simp only [Supervise.step, Option.ite_none_right_eq_some, Option.some.injEq] at h
    obtain ⟨-, rfl⟩ := h
    exact ⟨Or.inl rfl, Or.inl rfl, Or.inl rfl⟩
  | cancel t =>
    simp only [Supervise.step] at h
    split at h
    · split at h
      · cases t <;> simp only [Supervise.cancel] at h <;> split at h <;> cases h
        · exact ⟨Or.inl rfl, Or.inl rfl, Or.inr rfl⟩
        · exact ⟨Or.inl rfl, Or.inl rfl, Or.inr rfl⟩
        all_goals first
          | exact ⟨Or.inr rfl, Or.inl rfl, Or.inl rfl⟩ | exact ⟨Or.inl rfl, Or.inr rfl, Or.inl rfl⟩
      · cases h
    · cases h
  | join =>
    simp only [Supervise.step] at h
    split at h
    · split at h <;> cases h
      exact ⟨Or.inl rfl, Or.inl rfl, Or.inl rfl⟩
    · cases h
  | unregisterGet =>
    simp only [Supervise.step, Option.ite_none_right_eq_some, Option.some.injEq] at h
    obtain ⟨-, rfl⟩ := h
    exact ⟨Or.inl rfl, Or.inl rfl, Or.inl rfl⟩
  | unregisterRemove | close =>
    simp only [Supervise.step] at h
    split at h <;> cases h
    exact ⟨Or.inl rfl, Or.inl rfl, Or.inl rfl⟩

/-- A set-up leaves each task as it is or spawns it. -/
theorem setup_tasks {a : SetupAct} (h : Setup.step w i c a = some r) :
    (r.2.writer = c.writer ∨ r.2.writer = .spawned) ∧
      (r.2.fanout = c.fanout ∨ (c.stage = .writerSpawned ∧ r.2.fanout = .waiting)) ∧
      (r.2.reader = c.reader ∨ r.2.reader = .spawned) := by
  cases a <;> simp only [Setup.step, Option.ite_none_right_eq_some, Option.some.injEq] at h <;>
    obtain ⟨hs, rfl⟩ := h
  case openQueue =>
    simp only [Setup.openQueue]
    split <;> exact ⟨Or.inl rfl, Or.inl rfl, Or.inl rfl⟩
  case locate =>
    unfold Setup.locate
    split <;> exact ⟨Or.inl rfl, Or.inl rfl, Or.inl rfl⟩
  case ready =>
    unfold Setup.ready
    split <;> exact ⟨Or.inl rfl, Or.inl rfl, Or.inl rfl⟩
  case spawnWriter => exact ⟨Or.inr rfl, Or.inl rfl, Or.inl rfl⟩
  case spawnFanout => exact ⟨Or.inl rfl, Or.inr ⟨hs, rfl⟩, Or.inl rfl⟩
  case spawnReader => exact ⟨Or.inl rfl, Or.inl rfl, Or.inr rfl⟩
  all_goals exact ⟨Or.inl rfl, Or.inl rfl, Or.inl rfl⟩

/-- A supervisor runs after all spawns, or after an early return. -/
theorem supervise_rank {a : SuperviseAct} (h : Supervise.step w i c a = some r) :
    (10 ≤ c.stage.rank ∧ 10 ≤ r.2.stage.rank) ∨
      (c.stage = .returned false ∧ r.2.stage = .closed false ∧ r.1.queues = w.queues ∧
        r.2.writer = c.writer ∧ r.2.fanout = c.fanout ∧ r.2.reader = c.reader) := by
  cases a with
  | select t =>
    simp only [Supervise.step, Option.ite_none_right_eq_some, Option.some.injEq] at h
    obtain ⟨⟨hs, -⟩, rfl⟩ := h
    exact Or.inl ⟨by rw [hs, Stage.rank], by simp [Stage.rank]⟩
  | cancel t =>
    simp only [Supervise.step] at h
    split at h
    · rename_i hs
      split at h
      · obtain ⟨-, -, hs'⟩ := Supervise.cancel_spec h
        rw [hs', hs]
        exact Or.inl ⟨by simp [Stage.rank], by simp [Stage.rank]⟩
      · cases h
    · cases h
  | join =>
    simp only [Supervise.step] at h
    split at h
    · rename_i hs
      split at h <;> cases h
      rw [hs]
      exact Or.inl ⟨by simp [Stage.rank], by simp [Stage.rank]⟩
    · cases h
  | unregisterGet =>
    simp only [Supervise.step, Option.ite_none_right_eq_some, Option.some.injEq] at h
    obtain ⟨hs, rfl⟩ := h
    rw [hs]
    exact Or.inl ⟨by simp [Stage.rank], by simp [Stage.rank]⟩
  | unregisterRemove =>
    simp only [Supervise.step] at h
    split at h <;> cases h
    rename_i hs
    rw [hs]
    exact Or.inl ⟨by simp [Stage.rank], by simp [Supervise.unregisterRemove, Stage.rank]⟩
  | close =>
    simp only [Supervise.step] at h
    split at h <;> cases h
    rename_i b hs
    cases b with
    | true => exact Or.inl ⟨by simp [hs, Stage.rank], by simp [Stage.rank]⟩
    | false => exact Or.inr ⟨hs, rfl, rfl, rfl, rfl, rfl⟩

theorem shaped_supervise {a : SuperviseAct} (hc : c.Shaped) (h : Supervise.step w i c a = some r) :
    r.2.Shaped := by
  have hf := Supervise.step_framed h
  obtain ⟨hw, hn, -⟩ := supervise_tasks h
  have hwritten : r.2.writer = .off → r.2.written = [] := by
    rw [hf.written]
    rcases hw with hw | hw <;> rw [hw]
    · exact hc.written
    · exact nofun
  have hpassed : r.2.fanout = .off → r.2.passed = [] := by
    rw [hf.passed]
    rcases hn with hn | hn <;> rw [hn]
    · exact hc.passed
    · exact nofun
  have hkey : 1 ≤ c.stage.rank →
      r.2.topicKey = tenantTopic r.2.identity.tenantId (normalizeTopic r.2.query.topic) := by
    rw [show r.2.topicKey = c.topicKey from congrArg Seat.topicKey hf.seat,
      show r.2.identity = c.identity from congrArg Ticket.identity hf.ticket,
      show r.2.query = c.query from congrArg Ticket.query hf.ticket]
    exact hc.topicKey
  rcases supervise_rank h with ⟨h1, h2⟩ | ⟨h1, h2, -, hw', hn', hr'⟩
  · exact ⟨fun h => absurd h (by omega), fun h => absurd h (by omega), fun h => absurd h (by omega),
      hwritten, hpassed, fun _ => hkey (by omega)⟩
  · have h6 : c.stage.rank = 6 := by rw [h1, Stage.rank]
    exact ⟨fun _ => hw'.trans (hc.writer (by omega)), fun _ => hn'.trans (hc.fanout (by omega)),
      fun _ => hr'.trans (hc.reader (by omega)), hwritten, hpassed, fun _ => hkey (by omega)⟩

theorem shaped_run {config : Config} {ok : ServerState E → ServerAct E → Prop} {p : ServerState E}
    (h : Runs config ok p) {i : ℕ} {c : Session E} (hc : p.session i = some c) : c.Shaped := by
  refine (session_rule (J := fun _ _ => True) (K := fun _ _ c => c.Shaped) trivial
    (fun _ _ _ => trivial) (fun _ ip query _ _ => shaped_arrive ip query) ?_
    (fun _ _ _ _ _ _ _ _ _ => trivial) (fun p _ _ _ _ _ j c _ hI _ _ _ hc _ => hI.session j c hc)
    (fun _ _ _ _ => trivial) (fun _ _ _ _ hK => hK) h).session i c hc
  rintro p i c a r - hI - hc hs
  have hK := hI.session i c hc
  refine ⟨trivial, ?_⟩
  cases a with
  | handshake b => exact shaped_handshake hK hs
  | setup b => exact shaped_setup hK hs
  | supervise b => exact shaped_supervise hK hs
  | call b => cases hs
  | writer b =>
    have hf := Writer.step_framed hs
    have hon := writer_on hs
    refine ⟨?_, ?_, ?_, fun h => absurd h hon.2, ?_, ?_⟩
    · rw [hf.stage]; exact fun h => absurd (hK.writer h) hon.1
    · rw [hf.stage, hf.fanout]; exact hK.fanout
    · rw [hf.stage, hf.reader]; exact hK.reader
    · rw [hf.fanout, hf.passed]; exact hK.passed
    · exact hK.topicKey_still hf.stage hf.seat hf.ticket
  | fanout b =>
    have hf := Fanout.step_framed hs
    have hon := fanout_on hs
    refine ⟨?_, ?_, ?_, ?_, fun h => absurd h hon.2, ?_⟩
    · rw [hf.stage, hf.writer]; exact hK.writer
    · rw [hf.stage]; exact fun h => absurd (hK.fanout h) hon.1
    · rw [hf.stage, hf.reader]; exact hK.reader
    · rw [hf.writer, hf.written]; exact hK.written
    · exact hK.topicKey_still hf.stage hf.seat hf.ticket
  | reader b =>
    have hf := (Reader.step_framed hs).kept
    have hon := reader_on hs
    refine ⟨?_, ?_, ?_, ?_, ?_, ?_⟩
    · rw [hf.stage, hf.writer]; exact hK.writer
    · rw [hf.stage, hf.fanout]; exact hK.fanout
    · rw [hf.stage]; exact fun h => absurd (hK.reader h) hon
    · rw [hf.writer, hf.written]; exact hK.written
    · rw [hf.fanout, hf.passed]; exact hK.passed
    · exact hK.topicKey_still hf.stage hf.seat hf.ticket

end WsServer
