import Mathlib.Algebra.Group.Prod
import Mathlib.Algebra.Order.BigOperators.Group.List
import WsServer.Frames

/-! The gauge of active connections and the counter of outbound messages. `Aside` says which views of
    the world the traffic leaves alone, `Apart` which of them only the readers write. Every run keeps the
    counters equal to a sum over all requests, in which a connection whose set-up panicked still counts as
    active, and an HTTP call counts what it counted as sent. The source's counters are these as long as
    fewer than `2^64` events were counted. -/

namespace WsServer

open Lib

variable {E : Ext} {w : World E} {i : ℕ} {c : Session E} {r : World E × Session E}

/-! ### Sums over all WebSocket requests -/

/-- What a task adds to a sum. -/
def Task.account {M : Type*} [Zero M] (f : Session E → M) : Task E → M
  | .ws c => f c
  | .http _ => 0

def ServerState.total {M : Type*} [AddCommMonoid M] (p : ServerState E) (f : Session E → M) : M :=
  (p.threads.map (Task.account f)).sum

/-- How many requests have a property. -/
def ServerState.count (p : ServerState E) (f : Session E → Bool) : ℕ := p.total fun c => (f c).toNat

theorem total_map {M N : Type*} [AddCommMonoid M] [AddCommMonoid N] (φ : M →+ N) (p : ServerState E)
    (f : Session E → M) : φ (p.total f) = p.total fun c => φ (f c) := by
  rw [ServerState.total, map_list_sum, List.map_map]
  refine congrArg (fun g => (p.threads.map g).sum) (funext fun l => ?_)
  cases l with
  | ws c => rfl
  | http d => exact map_zero φ

theorem total_congr {M : Type*} [AddCommMonoid M] {p : ServerState E} {f g : Session E → M}
    (h : ∀ i c, p.session i = some c → f c = g c) : p.total f = p.total g := by
  refine congrArg List.sum (List.map_congr_left fun l hl => ?_)
  cases l with
  | ws c =>
    obtain ⟨i, hi⟩ := List.mem_iff_getElem?.mp hl
    exact h i c (session_eq_some.mpr hi)
  | http d => rfl

theorem total_add {M : Type*} [AddCommMonoid M] (p : ServerState E) (f g : Session E → M) :
    p.total (fun c => f c + g c) = p.total f + p.total g := by
  rw [ServerState.total, ServerState.total, ServerState.total, ← List.sum_map_add]
  refine congrArg (fun k => (p.threads.map k).sum) (funext fun l => ?_)
  cases l with
  | ws c => rfl
  | http d => exact (add_zero _).symm

theorem total_zero {M : Type*} [AddCommMonoid M] (p : ServerState E) :
    p.total (fun _ => (0 : M)) = 0 := by
  refine List.sum_eq_zero fun n hn => ?_
  obtain ⟨l, -, rfl⟩ := List.mem_map.mp hn
  cases l <;> rfl

theorem count_eq_zero {p : ServerState E} {f : Session E → Bool}
    (h : ∀ i c, p.session i = some c → f c = false) : p.count f = 0 := by
  rw [ServerState.count, total_congr (g := fun _ => 0) fun i c hc => by rw [h i c hc]; rfl]
  exact total_zero p

/-! ### Views beside the traffic -/

/-- A view of the world that no queue, channel or pool is part of, nor a counter of drops or
    refusals. -/
structure Aside {β : Type*} (f : World E → β) : Prop where
  queued : ∀ w i q, f (w.setQueue i q) = f w
  wired : ∀ (w : World E) topics channels published,
    f { w with
      app := { w.app with topics := topics }, channels := channels, published := published } = f w
  pooled : ∀ (w : World E) connectionLimit ipLimiter tenantLimits,
    f { w with
      app := { w.app with
        connectionLimit := connectionLimit, ipLimiter := ipLimiter, tenantLimits := tenantLimits } } = f w
  dropped : ∀ w : World E, f (w.withMetrics Metrics.messageDropped) = f w
  refused : ∀ (w : World E) k, f (w.withMetrics (Handshake.countKind k)) = f w
  rejected : ∀ w : World E, f (w.withMetrics Metrics.connectionRejected) = f w

namespace Aside

variable {β : Type*} {f : World E → β}

theorem trySend (hf : Aside f) (w : World E) (i : ℕ) (x : Item E) : f (w.trySend i x).2 = f w := by
  rcases World.trySend_cases w i x with ⟨q, -, h⟩ | ⟨-, h⟩ <;> rw [h]
  exact hf.queued w i q

theorem sendEncoded (hf : Aside f) (w : World E) (i : ℕ) (encoded : E.Bytes) (source : Source) :
    f (w.sendEncoded i encoded source).2 = f w := by
  simp only [World.sendEncoded]
  split
  · exact hf.trySend w i _
  · exact (hf.dropped _).trans (hf.trySend w i _)

theorem sendToClient (hf : Aside f) (w : World E) (clientId tenantId : String) (encoded : E.Bytes)
    (sender : AuthIdentity) : f (w.sendToClient clientId tenantId encoded sender).2 = f w := by
  unfold World.sendToClient
  split
  · exact hf.trySend w _ _
  · rfl

theorem topicSender (hf : Aside f) {w : World E} {key : String} {s : ℕ × World E}
    (h : w.topicSender key = some s) : f s.2 = f w := by
  simp only [World.topicSender] at h
  split at h
  · cases h; rfl
  · split at h <;> cases h
    exact hf.wired w _ _ w.published

theorem publish (hf : Aside f) (w : World E) (ch : ℕ) (p : Publish E) :
    f (w.publish ch p).2 = f w := by
  have hlog : ∀ channels,
      f { w with channels := channels, published := w.published ++ [p] } = f w :=
    fun channels => hf.wired w w.app.topics channels _
  simp only [World.publish]
  split
  · split
    · exact hlog _
    · exact hlog w.channels
  · exact hlog w.channels

/-- A handshake writes the pools and the counters of refusals. -/
theorem handshake (hf : Aside f) {a : HandshakeAct} (h : Handshake.step w c a = some r) :
    f r.1 = f w := by
  have hpool := hf.pooled w
  cases a with
  | ipAdmission order =>
    simp only [Handshake.step, Handshake.ipAdmission, Option.ite_none_right_eq_some] at h
    obtain ⟨-, h⟩ := h
    split at h
    · cases h; rfl
    · split at h
      · split at h <;> cases h <;> exact hpool w.app.connectionLimit _ w.app.tenantLimits
      · cases h
  | globalPermit =>
    simp only [Handshake.step, Option.ite_none_right_eq_some, Option.some.injEq] at h
    obtain ⟨-, rfl⟩ := h
    unfold Handshake.globalPermit
    split
    · exact hpool _ w.app.ipLimiter w.app.tenantLimits
    · rfl
  | authenticate =>
    simp only [Handshake.step, Option.ite_none_right_eq_some, Option.some.injEq] at h
    obtain ⟨-, rfl⟩ := h
    unfold Handshake.authenticate
    split <;> rfl
  | tenantPermit =>
    simp only [Handshake.step, Option.ite_none_right_eq_some, Option.some.injEq] at h
    obtain ⟨-, rfl⟩ := h
    obtain ⟨limits, hl⟩ := Handshake.acquireTenantPermit_spec w.app c.identity.tenantId
    unfold Handshake.tenantPermit
    split <;> rename_i app ha <;> rw [ha] at hl <;> dsimp only at hl <;> subst hl <;>
      exact hpool w.app.connectionLimit w.app.ipLimiter limits
  | upgrade succeeds =>
    simp only [Handshake.step, Option.ite_none_right_eq_some, Option.some.injEq] at h
    obtain ⟨-, rfl⟩ := h
    rfl
  | countKind =>
    simp only [Handshake.step] at h
    split at h <;> cases h
    exact hf.refused w _
  | countRejected =>
    simp only [Handshake.step] at h
    split at h <;> cases h
    exact hf.rejected w
  | dropIp =>
    simp only [Handshake.step, Option.ite_none_right_eq_some, Option.some.injEq] at h
    obtain ⟨-, rfl⟩ := h
    exact hpool w.app.connectionLimit _ w.app.tenantLimits
  | dropGlobal =>
    simp only [Handshake.step, Option.ite_none_right_eq_some, Option.some.injEq] at h
    obtain ⟨-, rfl⟩ := h
    exact hpool _ w.app.ipLimiter w.app.tenantLimits
  | dropTenant =>
    simp only [Handshake.step, Option.ite_none_right_eq_some, Option.some.injEq] at h
    obtain ⟨-, rfl⟩ := h
    obtain ⟨limits, hl⟩ := Handshake.releaseTenantPermit_spec w.app c.identity.tenantId
    rw [Handshake.dropTenant, hl]
    exact hpool w.app.connectionLimit w.app.ipLimiter limits

/-- A fanout moves its receiver, fills its queue and counts what it drops. -/
theorem fanout (hf : Aside f) {a : FanoutAct} (h : Fanout.step w i c a = some r) : f r.1 = f w := by
  have hmoved : ∀ (w : World E) ch g, f (w.onChannel ch g) = f w :=
    fun w ch g => hf.wired w w.app.topics _ w.published
  cases a with
  | recv =>
    simp only [Fanout.step] at h
    split at h
    · simp only [Fanout.recv] at h
      split at h
      · cases h
      · split at h <;> cases h
        · exact hmoved w c.chan fun _ => _
        · exact (hf.dropped _).trans (hmoved w c.chan fun _ => _)
    · cases h
  | forward =>
    simp only [Fanout.step] at h
    split at h <;> cases h
    simp only [Fanout.forward]
    split
    · exact hf.sendEncoded w i _ _
    · exact (hmoved _ c.chan (·.dropRx i)).trans (hf.sendEncoded w i _ _)

end Aside

/-- A view that only the readers write: it is aside, and neither the registry nor a counter of accepted,
    closed or written is part of it. -/
structure Apart {β : Type*} (f : World E → β) : Prop extends Aside f where
  listed : ∀ (w : World E) clients nextConnectionId registrations takers,
    f { w with
      app := { w.app with clients := clients, nextConnectionId := nextConnectionId },
      registrations := registrations, takers := takers } = f w
  accepted : ∀ w : World E, f (w.withMetrics Metrics.connectionAccepted) = f w
  closed : ∀ w : World E, f (w.withMetrics Metrics.connectionClosed) = f w
  written : ∀ w : World E, f (w.withMetrics Metrics.messageOut) = f w

namespace Apart

variable {β : Type*} {f : World E → β}

theorem setup (hf : Apart f) {a : SetupAct} (h : Setup.step w i c a = some r) : f r.1 = f w := by
  cases a <;> simp only [Setup.step, Option.ite_none_right_eq_some, Option.some.injEq] at h <;>
    obtain ⟨-, rfl⟩ := h
  case accept => exact hf.accepted w
  case openQueue =>
    simp only [Setup.openQueue]
    split
    · rfl
    · exact hf.queued w i _
  case locate =>
    unfold Setup.locate
    split
    · rename_i hw
      exact hf.topicSender hw
    · exact hf.queued w i _
  case subscribe => exact hf.wired w w.app.topics _ w.published
  case number => exact hf.listed w w.app.clients _ w.registrations _
  case register => exact hf.listed w _ w.app.nextConnectionId _ w.takers
  case ready =>
    unfold Setup.ready
    split
    · exact hf.sendEncoded w i _ _
    · exact (hf.queued _ i _).trans (hf.wired w w.app.topics _ w.published)
  case spawnWriter | spawnFanout | spawnReader => rfl

theorem writer (hf : Apart f) {a : WriterAct} (h : Writer.step w i c a = some r) :
    f r.1 = f w := by
  cases a with
  | start =>
    simp only [Writer.step] at h
    split at h <;> cases h
    simp only [Writer.start]
    split
    · exact hf.queued w i _
    · rfl
  | beat =>
    simp only [Writer.step] at h
    split at h
    · split at h <;> cases h
      rfl
    · cases h
  | pinged succeeds =>
    simp only [Writer.step] at h
    split at h <;> cases h
    unfold Writer.pinged
    split
    · rfl
    · exact hf.queued w i _
  | pop =>
    simp only [Writer.step] at h
    split at h
    · obtain ⟨q, -, rfl⟩ := Option.map_eq_some_iff.mp h
      exact hf.queued w i _
    · cases h
  | wrote succeeds =>
    simp only [Writer.step] at h
    split at h <;> cases h
    unfold Writer.wrote
    split
    · exact hf.written w
    · exact hf.queued w i _

theorem supervise (hf : Apart f) {a : SuperviseAct} (h : Supervise.step w i c a = some r) :
    f r.1 = f w := by
  cases a with
  | select t | unregisterGet =>
    simp only [Supervise.step, Option.ite_none_right_eq_some, Option.some.injEq] at h
    obtain ⟨-, rfl⟩ := h
    rfl
  | cancel t =>
    simp only [Supervise.step] at h
    split at h
    · split at h
      · cases t <;> simp only [Supervise.cancel] at h <;> split at h <;> cases h
        · rfl
        · rfl
        all_goals first | exact hf.queued w i _ | exact hf.wired w w.app.topics _ w.published
      · cases h
    · cases h
  | join =>
    simp only [Supervise.step] at h
    split at h
    · split at h <;> cases h
      rfl
    · cases h
  | unregisterRemove =>
    simp only [Supervise.step] at h
    split at h <;> cases h
    simp only [Supervise.unregisterRemove]
    split
    · exact hf.listed w _ w.app.nextConnectionId w.registrations w.takers
    · rfl
  | close =>
    simp only [Supervise.step] at h
    split at h <;> cases h
    exact hf.closed w

/-- Of the tasks of a connection only the reader writes the view. -/
theorem elsewhere (hf : Apart f) {a : TaskAct} (h : Session.step w i c a = some r)
    (ha : ∀ b, a ≠ .reader b) : f r.1 = f w := by
  cases a with
  | handshake b => exact hf.handshake h
  | setup b => exact hf.setup h
  | writer b => exact hf.writer h
  | fanout b => exact hf.fanout h
  | supervise b => exact hf.supervise h
  | reader b => exact absurd rfl (ha b)
  | call b => cases h

theorem out_iterate (hf : Apart f) (w : World E) (n : ℕ) :
    f (w.withMetrics Metrics.messageOut^[n]) = f w := by
  induction n generalizing w with
  | zero => rfl
  | succ n ih => exact (ih (w.withMetrics Metrics.messageOut)).trans (hf.written w)

theorem call (hf : Apart f) {d : Call E} {a : CallAct} {s : World E × Call E}
    (h : Api.step w i d a = some s) : f s.1 = f w := by
  cases a with
  | resolve =>
    simp only [Api.step] at h
    split at h <;> cases h
    rfl
  | locate =>
    simp only [Api.step] at h
    split at h <;> cases h
    unfold Api.locate
    split
    · rename_i hw
      exact hf.topicSender hw
    · rfl
  | send =>
    simp only [Api.step] at h
    split at h <;> cases h
    rename_i topicKey ch encoded hp
    have hpublish := hf.publish w ch ⟨topicKey, d.identity, .http i, encoded⟩
    simp only [Api.send]
    split
    · exact (hf.dropped _).trans hpublish
    · exact (hf.out_iterate _ _).trans hpublish
  | direct =>
    simp only [Api.step] at h
    split at h <;> cases h
    simp only [Api.deliver]
    split
    · exact (hf.written _).trans (hf.sendToClient w _ _ _ _)
    · exact (hf.dropped _).trans (hf.sendToClient w _ _ _ _)

end Apart

/-! ### The counters -/

/-- `active_connections`, `accepted_connections` and `messages_out`. -/
def Metrics.flow (m : Metrics) : ℕ × ℕ × ℕ :=
  (m.activeConnections, m.acceptedConnections, m.messagesOut)

def World.flow (w : World E) : ℕ × ℕ × ℕ := w.app.metrics.flow

theorem aside_flow : Aside (World.flow (E := E)) where
  queued _ _ _ := rfl
  wired _ _ _ _ := rfl
  pooled _ _ _ _ := rfl
  dropped _ := rfl
  refused _ k := by cases k <;> rfl
  rejected _ := rfl

/-! ### What a step counts -/

/-- What a connection counts for: active, accepted. -/
def Stage.tally : Stage → ℕ × ℕ
  | .accepted | .opened | .located | .subscribed | .numbered | .registered | .readied
  | .writerSpawned | .fanoutSpawned | .running | .selected _ | .joined | .matched _ | .returned _
  | .panicked => (1, 1)
  | .closed _ => (0, 1)
  | _ => (0, 0)

/-- What a WebSocket request counts for: active, accepted, out. -/
def Session.flow (c : Session E) : ℕ × ℕ × ℕ := (c.stage.tally.1, c.stage.tally.2, c.written.length)

/-- What a call has counted as sent. -/
def CallPc.sent : CallPc E → ℕ
  | .done (.published receivers) => receivers
  | .done (.direct _ ok _) => ok.toNat
  | _ => 0

/-- What a task counts for. -/
def Task.flow : Task E → ℕ × ℕ × ℕ
  | .ws c => c.flow
  | .http d => (0, 0, d.pc.sent)

theorem handshake_flow {a : HandshakeAct} (h : Handshake.step w c a = some r) :
    r.1.flow = w.flow ∧ r.2.flow = c.flow := by
  have hw := (Handshake.step_framed h).written
  have htally : r.2.stage.tally = c.stage.tally := by
    rcases Handshake.stage_step h with ⟨hb, hb'⟩ | ⟨hs, -⟩
    · have hzero : ∀ s : Stage, s.isHandshake = true → s.tally = (0, 0) := by
        intro s hs
        cases s <;> first | rfl | cases hs
      rw [hzero _ hb, hzero _ hb']
    · rw [hs]
  exact ⟨aside_flow.handshake h, by rw [Session.flow, Session.flow, htally, hw]⟩

theorem setup_flow {a : SetupAct} (h : Setup.step w i c a = some r) :
    (r.1.flow = w.flow ∧ r.2.flow = c.flow) ∨
      (r.1.flow = w.flow + (1, 1, 0) ∧ r.2.flow = c.flow + (1, 1, 0)) := by
  cases a <;> simp only [Setup.step, Option.ite_none_right_eq_some, Option.some.injEq] at h <;>
    obtain ⟨hs, rfl⟩ := h
  case accept =>
    refine Or.inr ⟨rfl, ?_⟩
    simp [Setup.accept, Session.flow, hs, Stage.tally]
  case openQueue =>
    simp only [Setup.openQueue]
    split <;> exact Or.inl ⟨rfl, by simp [Session.flow, hs, Stage.tally]⟩
  case locate =>
    unfold Setup.locate
    split
    · rename_i hw
      exact Or.inl ⟨aside_flow.topicSender hw, by simp [Session.flow, hs, Stage.tally]⟩
    · exact Or.inl ⟨rfl, by simp [Session.flow, hs, Stage.tally]⟩
  case ready =>
    unfold Setup.ready
    split
    · exact Or.inl ⟨aside_flow.sendEncoded w i _ _, by simp [Session.flow, hs, Stage.tally]⟩
    · exact Or.inl ⟨rfl, by simp [Session.flow, hs, Stage.tally]⟩
  all_goals
    exact Or.inl ⟨rfl, by
      simp [Setup.subscribe, Setup.number, Setup.register, Session.flow, hs, Stage.tally]⟩

theorem supervise_flow {a : SuperviseAct} (h : Supervise.step w i c a = some r) :
    (r.1.flow = w.flow ∧ r.2.flow = c.flow) ∨
      (c.stage.tally = (1, 1) ∧ r.1.app.metrics = w.app.metrics.connectionClosed ∧
        r.2.stage.tally = (0, 1) ∧ r.2.written = c.written) := by
  have hw := (Supervise.step_framed h).written
  cases a with
  | select t =>
    simp only [Supervise.step, Option.ite_none_right_eq_some, Option.some.injEq] at h
    obtain ⟨⟨hs, -⟩, rfl⟩ := h
    exact Or.inl ⟨rfl, by simp [Session.flow, hs, Stage.tally]⟩
  | cancel t =>
    simp only [Supervise.step] at h
    split at h
    · split at h
      · obtain ⟨-, -, hs'⟩ := Supervise.cancel_spec h
        refine Or.inl ⟨?_, by rw [Session.flow, Session.flow, hs', hw]⟩
        cases t <;> simp only [Supervise.cancel] at h <;> split at h <;> cases h <;> rfl
      · cases h
    · cases h
  | join =>
    simp only [Supervise.step] at h
    split at h
    · rename_i hs
      split at h <;> cases h
      exact Or.inl ⟨rfl, by simp [Session.flow, hs, Stage.tally]⟩
    · cases h
  | unregisterGet =>
    simp only [Supervise.step, Option.ite_none_right_eq_some, Option.some.injEq] at h
    obtain ⟨hs, rfl⟩ := h
    exact Or.inl ⟨rfl, by simp [Session.flow, hs, Stage.tally]⟩
  | unregisterRemove =>
    simp only [Supervise.step] at h
    split at h <;> cases h
    rename_i own hs
    refine Or.inl ⟨?_, by simp [Supervise.unregisterRemove, Session.flow, hs, Stage.tally]⟩
    simp only [Supervise.unregisterRemove]
    split <;> rfl
  | close =>
    simp only [Supervise.step] at h
    split at h <;> cases h
    rename_i unregistered hs
    exact Or.inr ⟨by rw [hs]; rfl, rfl, rfl, rfl⟩

theorem writer_flow {a : WriterAct} (h : Writer.step w i c a = some r) :
    (r.1.flow = w.flow ∧ r.2.flow = c.flow) ∨
      (r.1.flow = w.flow + (0, 0, 1) ∧ r.2.flow = c.flow + (0, 0, 1)) := by
  cases a with
  | start =>
    simp only [Writer.step] at h
    split at h <;> cases h
    simp only [Writer.start]
    split <;> exact Or.inl ⟨rfl, rfl⟩
  | beat =>
    simp only [Writer.step] at h
    split at h
    · split at h <;> cases h
      exact Or.inl ⟨rfl, rfl⟩
    · cases h
  | pinged succeeds =>
    simp only [Writer.step] at h
    split at h <;> cases h
    unfold Writer.pinged
    split <;> exact Or.inl ⟨rfl, rfl⟩
  | pop =>
    simp only [Writer.step] at h
    split at h
    · obtain ⟨q, -, rfl⟩ := Option.map_eq_some_iff.mp h
      exact Or.inl ⟨rfl, rfl⟩
    · cases h
  | wrote succeeds =>
    simp only [Writer.step] at h
    split at h <;> cases h
    unfold Writer.wrote
    split
    · exact Or.inr ⟨rfl, by simp [Session.flow]⟩
    · exact Or.inl ⟨rfl, rfl⟩

theorem fanout_flow {a : FanoutAct} (h : Fanout.step w i c a = some r) :
    r.1.flow = w.flow ∧ r.2.flow = c.flow := by
  have hf := Fanout.step_framed h
  exact ⟨aside_flow.fanout h, by rw [Session.flow, Session.flow, hf.stage, hf.written]⟩

/-- Of the reader's steps none counts here. -/
theorem reader_flow {a : ReaderAct} (h : Reader.step w i c a = some r) :
    r.1.flow = w.flow ∧ r.2.flow = c.flow := by
  have hk := (Reader.step_framed h).kept
  refine ⟨?_, by rw [Session.flow, Session.flow, hk.stage, hk.written]⟩
  have hgate : ∀ (c : Session E) tooLarge f, (Reader.gate w c tooLarge f).1.flow = w.flow := by
    intro c tooLarge f
    simp only [Reader.gate]
    split
    · rfl
    · split <;> rfl
  have hevent : ∀ (v : World E) event, (Reader.handleClientEvent v c event).1.flow = v.flow := by
    intro v event
    cases event <;> simp only [Reader.handleClientEvent] <;> split <;> rfl
  have hhandle : ∀ (v : World E) f, (Reader.handle v c f).1.flow = v.flow := by
    intro v f
    cases f <;> simp only [Reader.handle] <;> split <;> first | exact hevent v _ | rfl
  cases a with
  | start =>
    simp only [Reader.step] at h
    split at h <;> cases h
    rfl
  | frame f =>
    simp only [Reader.step] at h
    split at h <;> cases h
    cases f with
    | text t => exact hgate _ _ _
    | binary raw => exact hgate _ _ _
    | ping payload => exact aside_flow.trySend w i _
    | pong | close | eof | failure => rfl
  | tenantRate =>
    simp only [Reader.step] at h
    split at h <;> cases h
    obtain ⟨limits, hl⟩ := Reader.checkTenantRate_spec w.app w.now c.identity.tenantId
    simp only [Reader.tenantRate, hl]
    split
    · rfl
    · exact hhandle _ _
  | locate =>
    simp only [Reader.step] at h
    split at h <;> cases h
    unfold Reader.locate
    split
    · rename_i hw
      exact aside_flow.topicSender hw
    · rfl
  | send =>
    simp only [Reader.step] at h
    split at h <;> cases h
    simp only [Reader.send]
    split
    · exact aside_flow.publish w _ _
    · exact aside_flow.publish w _ _
  | direct =>
    simp only [Reader.step] at h
    split at h <;> cases h
    simp only [Reader.direct]
    split
    · exact aside_flow.sendToClient w _ _ _ _
    · exact aside_flow.sendToClient w _ _ _ _
  | reply =>
    simp only [Reader.step] at h
    split at h <;> cases h
    exact aside_flow.sendEncoded w i _ _
  | limitError =>
    simp only [Reader.step] at h
    split at h <;> cases h
    simp only [Reader.limitError]
    split
    · exact aside_flow.sendEncoded w i _ _
    · rfl
  | limitClose =>
    simp only [Reader.step] at h
    split at h <;> cases h
    exact aside_flow.trySend w i _
  | idleTimeout =>
    simp only [Reader.step] at h
    split at h
    · split at h <;> cases h
      exact aside_flow.trySend w i _
    · cases h

theorem out_iterate (m : Metrics) (n : ℕ) :
    (Metrics.messageOut^[n] m).flow = m.flow + (0, 0, n) := by
  induction n with
  | zero => rfl
  | succ n ih =>
    rw [Function.iterate_succ_apply']
    simp only [Metrics.flow, Metrics.messageOut, Prod.mk_add_mk, Prod.mk.injEq] at ih ⊢
    omega

/-- What a call counts it counts for good. -/
theorem call_flow {d : Call E} {a : CallAct} {s : World E × Call E}
    (h : Api.step w i d a = some s) :
    ∃ n, s.1.flow = w.flow + (0, 0, n) ∧ s.2.pc.sent = d.pc.sent + n := by
  cases a with
  | resolve =>
    simp only [Api.step] at h
    split at h
    · rename_i hp
      cases h
      refine ⟨0, rfl, ?_⟩
      rw [hp]
      simp only [Api.resolve]
      split
      · rfl
      · split
        · simp only [Api.publish]
          split <;> rfl
        · simp only [Api.direct]
          split <;> rfl
    · cases h
  | locate =>
    simp only [Api.step] at h
    split at h
    · rename_i hp
      cases h
      refine ⟨0, ?_, ?_⟩
      · unfold Api.locate
        split
        · rename_i hw
          exact aside_flow.topicSender hw
        · rfl
      · rw [hp]
        unfold Api.locate
        split <;> rfl
    · cases h
  | send =>
    simp only [Api.step] at h
    split at h
    · rename_i hp
      cases h
      refine ⟨_, ?_, by rw [hp]; exact (Nat.zero_add _).symm⟩
      rw [← aside_flow.publish w _ _]
      simp only [Api.send]
      split
      · rename_i hzero
        rw [hzero]
        rfl
      · exact out_iterate _ _
    · cases h
  | direct =>
    simp only [Api.step] at h
    split at h
    · rename_i target encoded hp
      cases h
      have hflow := aside_flow.sendToClient w target d.identity.tenantId encoded d.identity
      rw [hp]
      simp only [Api.deliver]
      split
      · exact ⟨1, by rw [← hflow]; rfl, rfl⟩
      · exact ⟨0, by rw [← hflow]; rfl, rfl⟩
    · cases h

theorem session_flow {a : TaskAct} (h : Session.step w i c a = some r) {m : ℕ × ℕ × ℕ}
    (hw : w.flow = c.flow + m) : r.1.flow = r.2.flow + m := by
  have same : r.1.flow = w.flow ∧ r.2.flow = c.flow → r.1.flow = r.2.flow + m :=
    fun ⟨h1, h2⟩ => by rw [h1, h2, hw]
  have up : ∀ n, r.1.flow = w.flow + n ∧ r.2.flow = c.flow + n → r.1.flow = r.2.flow + m :=
    fun n ⟨h1, h2⟩ => by rw [h1, h2, hw, add_right_comm]
  cases a with
  | handshake b => exact same (handshake_flow h)
  | setup b =>
    rcases setup_flow h with hb | hb
    · exact same hb
    · exact up _ hb
  | writer b =>
    rcases writer_flow h with hb | hb
    · exact same hb
    · exact up _ hb
  | fanout b => exact same (fanout_flow h)
  | reader b => exact same (reader_flow h)
  | call b => cases h
  | supervise b =>
    rcases supervise_flow h with hb | ⟨ht, hmetrics, ht', hwritten⟩
    · exact same hb
    · -- the gauge is at least one before a close, so the decrement does not wrap
      simp only [World.flow, Metrics.flow, Session.flow, ht, Prod.ext_iff, Prod.fst_add,
        Prod.snd_add] at hw
      simp only [World.flow, Metrics.flow, Session.flow, hmetrics, ht', hwritten,
        Metrics.connectionClosed, Prod.ext_iff, Prod.fst_add, Prod.snd_add]
      rw [if_neg (by omega)]
      omega

/-- The counters are the sums of what the requests count for. -/
theorem flow_run {config : Config} {ok : ServerState E → ServerAct E → Prop} {p : ServerState E}
    (h : Runs config ok p) : p.shared.flow = (p.threads.map Task.flow).sum := by
  refine Prog.sum_rule (R := fun w m => w.flow = m) rfl ?_ ?_ ?_ h
  · rintro (⟨ip, query⟩ | ⟨authorization, request⟩) <;> rfl
  · intro p i l a w' l' m _ _ _ hs _ hR
    cases l with
    | ws c =>
      obtain ⟨c', rfl, hstep⟩ := step_ws hs
      exact session_flow hstep hR
    | http d =>
      obtain ⟨d', b, rfl, rfl, hstep⟩ := step_http hs
      obtain ⟨n, h1, h2⟩ := call_flow hstep
      dsimp only at h1 h2
      rw [h1, hR]
      simp only [Task.flow, h2, Prod.ext_iff, Prod.fst_add, Prod.snd_add]
      omega
  · intro w d w' m hR he
    cases he
    exact hR

/-! ### Outbound messages -/

/-- `messages_out` is the number of queued messages that the writers wrote to their sockets. -/
def OutCounted (p : ServerState E) : Prop :=
  p.shared.app.metrics.messagesOut = p.total fun c => c.written.length

/-- What the HTTP calls have counted as sent. -/
def ServerState.sent (p : ServerState E) : ℕ :=
  (p.threads.map fun | .ws _ => 0 | .http d => d.pc.sent).sum

/-- The step is one of an HTTP call. -/
def overHttp : ServerAct E → Bool
  | .run _ (.call _) => true
  | _ => false

/-- No HTTP call reaches anybody: its topic has no receiver, its target is offline or cannot take
    another message. -/
def unheard (p : ServerState E) : ServerAct E → Prop
  | .run i (.call .send) => ∀ d key ch encoded, p.call i = some d →
      d.pc = .sending key ch encoded → ∀ c, p.shared.channels[ch]? = some c → c.chan.receivers = 0
  | .run i (.call .direct) => ∀ d target encoded, p.call i = some d →
      d.pc = .directing target encoded → ∀ j, p.shared.directTo target d.identity.tenantId = some j →
        (p.shared.queues j).isOpen = false ∨
          (p.shared.queues j).cap ≤ (p.shared.queues j).buf.length
  | _ => True

/-- Messages out are those written, and those that HTTP calls counted besides. -/
theorem messagesOut_run {config : Config} {ok : ServerState E → ServerAct E → Prop}
    {p : ServerState E} (h : Runs config ok p) :
    p.shared.app.metrics.messagesOut = (p.total fun c => c.written.length) + p.sent := by
  have hrun := congrArg ((AddMonoidHom.snd ℕ ℕ).comp (.snd ℕ (ℕ × ℕ))) (flow_run h)
  rw [map_list_sum, List.map_map] at hrun
  refine hrun.trans ?_
  rw [ServerState.total, ServerState.sent, ← List.sum_map_add]
  refine congrArg (fun g => (p.threads.map g).sum) (funext fun l => ?_)
  cases l with
  | ws c => rfl
  | http d => exact (Nat.zero_add _).symm

theorem sent_eq_zero {p : ServerState E} :
    p.sent = 0 ↔ ∀ i d, p.call i = some d → d.pc.sent = 0 := by
  rw [ServerState.sent, List.sum_eq_zero_iff]
  constructor
  · intro h i d hd
    exact h _ (List.mem_map.mpr ⟨.http d, List.mem_of_getElem? (call_eq_some.mp hd), rfl⟩)
  · intro h n hn
    obtain ⟨l, hl, rfl⟩ := List.mem_map.mp hn
    cases l with
    | ws c => rfl
    | http d =>
      obtain ⟨i, hi⟩ := List.mem_iff_getElem?.mp hl
      exact h i d (call_eq_some.mpr hi)

/-- A call that reaches nobody counts nothing. -/
theorem sent_unheard {p : ServerState E} {d : Call E} {a : CallAct} {s : World E × Call E}
    (hd : p.call i = some d) (hok : unheard p (.run i (.call a)))
    (h : Api.step p.shared i d a = some s) : s.2.pc.sent = 0 := by
  cases a with
  | resolve =>
    simp only [Api.step] at h
    split at h <;> cases h
    simp only [Api.resolve]
    split
    · rfl
    · split
      · simp only [Api.publish]
        split <;> rfl
      · simp only [Api.direct]
        split <;> rfl
  | locate =>
    simp only [Api.step] at h
    split at h <;> cases h
    unfold Api.locate
    split <;> rfl
  | send =>
    simp only [Api.step] at h
    split at h
    · rename_i key ch encoded hp
      cases h
      simp only [Api.send, CallPc.sent, World.publish]
      split
      · rename_i c hc
        have hnone := hok d key ch encoded hd hp c hc
        simp [Broadcast.send, hnone]
      · rfl
    · cases h
  | direct =>
    simp only [Api.step] at h
    split at h
    · rename_i target encoded hp
      cases h
      have hoff := hok d target encoded hd hp
      have hsend : (p.shared.sendToClient target d.identity.tenantId encoded d.identity).1 = false := by
        unfold World.sendToClient
        unfold World.directTo at hoff
        split
        · rename_i handle hl
          rcases World.trySend_cases p.shared handle.sender ⟨.binary encoded, .direct d.identity⟩
            with ⟨q, hq, -⟩ | ⟨-, ht⟩
          · obtain ⟨hopen, hroom, -⟩ := Queue.trySend_ok hq
            rcases hoff handle.sender (by rw [hl]; rfl) with hclosed | hfull
            · rw [hclosed] at hopen; cases hopen
            · exact absurd hroom (Nat.not_lt.mpr hfull)
          · rw [ht]
        · rfl
      simp only [Api.deliver, hsend, Bool.false_eq_true, if_false]
      rfl
    · cases h

theorem unheard_run {config : Config} {p : ServerState E} (h : Runs config unheard p) {i : ℕ}
    {d : Call E} (hd : p.call i = some d) : d.pc.sent = 0 := by
  refine (Prog.rely_guarantee (J := fun _ _ => True)
    (K := fun (_ : World E) (_ : ℕ) (l : Task E) => ∀ d, l = .http d → d.pc.sent = 0)
    ⟨trivial, fun i l hl => by simp [boot] at hl⟩ ?_ ?_
    (fun _ _ _ _ _ _ _ m _ hI _ _ _ hm _ => hI.each _ m hm)
    (fun _ _ _ hI _ => ⟨trivial, fun j m hm => hI.each j m hm⟩) h).each i _ (call_eq_some.mp hd) d rfl
  · rintro p (⟨ip, query⟩ | ⟨authorization, request⟩) - -
    · exact ⟨trivial, fun _ h => by cases h⟩
    · exact ⟨trivial, fun d hd => by cases hd; rfl⟩
  · intro p i l a w' l' _ hI hok hl hs
    refine ⟨trivial, fun d' hd' => ?_⟩
    cases l with
    | ws c =>
      obtain ⟨c', rfl, -⟩ := step_ws hs
      cases hd'
    | http d =>
      obtain ⟨e, b, rfl, rfl, hstep⟩ := step_http hs
      cases hd'
      exact sent_unheard (call_eq_some.mpr hl) hok hstep

/-- While no HTTP call reaches anybody, every written message counts once. In general
    `messages_out` is right exactly as long as no call has counted anything. -/
theorem out_counted (E : Ext) (config : Config) :
    (∀ p : ServerState E, Runs config unheard p → OutCounted p) ∧
      ∀ p : ServerState E, Runs config always p →
        (OutCounted p ↔ ∀ i d, p.call i = some d → d.pc.sent = 0) := by
  have hiff : ∀ (ok : ServerState E → ServerAct E → Prop) p, Runs config ok p →
      (OutCounted p ↔ ∀ i d, p.call i = some d → d.pc.sent = 0) := by
    intro ok p h
    rw [← sent_eq_zero, OutCounted, messagesOut_run h]
    omega
  exact ⟨fun p h => (hiff _ p h).mpr fun i d hd => unheard_run h hd, fun p h => hiff _ p h⟩

/-- A subscriber with his `ready` event written. -/
def subscriberReady : List (ServerAct Ext.plain) :=
  .spawn (.ws (.v4 1) ⟨"public", none, none, none⟩) ::
    steps 0 (handshakeSteps ++ registerSteps ++ spawnSteps ++ [.writer .pop, .writer (.wrote true)])

/-- Then a call publishes on a topic without subscribers, and another sends to a client who is offline. -/
def callsUnheard : List (ServerAct Ext.plain) :=
  subscriberReady ++ .spawn (.api none (.publish ⟨some "quiet", none, "hi"⟩)) ::
    steps 1 [.call .resolve, .call .locate, .call .send] ++
    .spawn (.api none (.direct ⟨"bob", none, "hi"⟩)) :: steps 2 [.call .resolve, .call .direct]

/-- The message that the call has in hand would reach nobody. -/
def Call.isUnheard (w : World E) (d : Call E) : Bool :=
  match d.pc with
  | .sending _ ch _ => (w.channels[ch]?).all (·.chan.receivers = 0)
  | .directing target _ => (w.directTo target d.identity.tenantId).isNone
  | _ => true

/-- Calls step only with messages that reach nobody. -/
def callsAreUnheard (p : ServerState E) : ServerAct E → Bool
  | .run i (.call _) => (p.call i).all (·.isUnheard p.shared)
  | _ => true

theorem unheard_of_isUnheard {p : ServerState E} {a : ServerAct E} (h : callsAreUnheard p a = true) :
    unheard p a := by
  rcases a with a | ⟨i, a⟩ | a
  · trivial
  · cases a with
    | call b =>
      have hcall : ∀ d, p.call i = some d → d.isUnheard p.shared = true := by
        intro d hd
        rw [callsAreUnheard, hd] at h
        exact h
      cases b with
      | send =>
        intro d key ch encoded hd hp c hc
        have hnobody := hcall d hd
        simp only [Call.isUnheard, hp, hc, Option.all_some, decide_eq_true_eq] at hnobody
        exact hnobody
      | direct =>
        intro d target encoded hd hp j hj
        have hnobody := hcall d hd
        simp only [Call.isUnheard, hp, hj, Option.isNone_some, Bool.false_eq_true] at hnobody
      | _ => trivial
    | _ => trivial
  · trivial

theorem out_counted_ready : ∃ p : ServerState Ext.plain,
    (p.call 1).map (·.pc.sent) = some 0 ∧ p.shared.app.metrics.droppedMessages = 2 ∧
      p.shared.app.metrics.messagesOut = 1 ∧ OutCounted p := by
  obtain ⟨p, hp, hc⟩ := play_check Config.plain callsAreUnheard callsUnheard
    (fun p => decide ((p.call 1).map (·.pc.sent) = some 0 ∧
      p.shared.app.metrics.droppedMessages = 2 ∧ p.shared.app.metrics.messagesOut = 1)) (by decide +kernel)
  obtain ⟨hsent, hdropped, hout⟩ := of_decide_eq_true hc
  exact ⟨p, hsent, hdropped, hout, (out_counted Ext.plain Config.plain).1 p
    (hp.mono fun _ _ => unheard_of_isUnheard)⟩

/-- An HTTP publish counts for its receiver, who has not been sent anything. -/
theorem out_counted_twice : ¬ ∀ (E : Ext) (config : Config) (p : ServerState E),
    Runs config always p → OutCounted p := by
  intro hcounted
  obtain ⟨p, hp, hc⟩ := play_check Config.plain (fun _ _ => true)
    (subscriberReady ++ .spawn (.api none (.publish ⟨none, none, "hi"⟩)) ::
      steps 1 [.call .resolve, .call .locate, .call .send])
    (fun p => decide (p.shared.app.metrics.messagesOut = 2 ∧
      (p.total fun c => c.written.length) = 1)) (by decide +kernel)
  have hout := hcounted Ext.plain Config.plain p hp.toAlways
  rw [decide_eq_true_eq] at hc
  rw [OutCounted, hc.1, hc.2] at hout
  cases hout

end WsServer
