import WsServer.Socket
import WsServer.Volume

/-! The two timers of a connection. The writer's `interval` has its ticks at the multiples of the period
    from the moment the writer begins, and a late tick does not move the next one. The reader's `sleep`
    starts anew with every round of its loop. So however the tasks are scheduled, no ping goes out before
    its tick, and no client is given up that was heard within the idle timeout. -/

namespace WsServer

open Lib

variable {E : Ext} {w : World E} {i : ℕ} {c c' : Session E} {r : World E × Session E} {config : Config}
  {p : ServerState E}

/-! ### The clock -/

/-- A task that steps takes no time. -/
theorem now_step {l l' : Task E} {a : TaskAct} {w' : World E} (h : Task.step w i l a = some (w', l')) :
    w'.now = w.now := by
  cases l with
  | http d =>
    obtain ⟨d', b, rfl, rfl, hs⟩ := step_http h
    exact congrArg Prod.snd (apart_meters.call hs)
  | ws c =>
    obtain ⟨c', rfl, hs⟩ := step_ws h
    by_cases hread : ∃ b, a = .reader b
    · obtain ⟨b, rfl⟩ := hread
      cases reader_spends hs with
      | check ha hm before after => exact congrArg Prod.snd hm
      | other hm hunder => exact congrArg Prod.snd hm
    · exact congrArg Prod.snd (apart_meters.elsewhere hs fun b e => hread ⟨b, e⟩)

/-! ### What the tasks do to the timers -/

/-- A step of the reader leaves the heartbeat alone, and a reader that waits has just begun to. -/
structure Rewinds (now : ℕ) (c c' : Session E) : Prop where
  beat : c'.nextBeat = c.nextBeat
  rest : c'.reader = .idle → c'.idleSince = now

theorem rewinds_sendError (now : ℕ) (code message : String) :
    Rewinds now c (c.sendError now code message) := by
  unfold Session.sendError
  split
  · exact ⟨rfl, by rintro ⟨⟩⟩
  · exact ⟨rfl, fun _ => rfl⟩

theorem rewinds_handleClientEvent (event : ClientEvent E.Value) :
    Rewinds w.now c (Reader.handleClientEvent w c event).2 := by
  cases event <;> simp only [Reader.handleClientEvent] <;> split <;>
    first | exact rewinds_sendError _ _ _ | exact ⟨rfl, by rintro ⟨⟩⟩

theorem rewinds_handle (f : Inbound) : Rewinds w.now c (Reader.handle w c f).2 := by
  cases f <;> simp only [Reader.handle] <;> split <;>
    first | exact rewinds_handleClientEvent _ | exact rewinds_sendError _ _ _

theorem rewinds_gate (tooLarge : Bool) (f : Inbound) :
    Rewinds w.now c (Reader.gate w c tooLarge f).2 := by
  simp only [Reader.gate]
  split
  · exact ⟨rfl, by rintro ⟨⟩⟩
  · split
    · exact ⟨(rewinds_sendError _ _ _).beat, (rewinds_sendError _ _ _).rest⟩
    · exact ⟨rfl, by rintro ⟨⟩⟩

theorem rewinds_reader {a : ReaderAct} (h : Reader.step w i c a = some r) : Rewinds w.now c r.2 := by
  cases a with
  | frame f =>
    simp only [Reader.step] at h
    split at h <;> cases h
    cases f with
    | text t => exact ⟨(rewinds_gate _ _).beat, (rewinds_gate _ _).rest⟩
    | binary raw => exact ⟨(rewinds_gate _ _).beat, (rewinds_gate _ _).rest⟩
    | ping payload | pong => exact ⟨rfl, fun _ => rfl⟩
    | close | eof | failure => exact ⟨rfl, by rintro ⟨⟩⟩
  | tenantRate =>
    simp only [Reader.step] at h
    split at h <;> cases h
    simp only [Reader.tenantRate]
    split
    · exact rewinds_sendError _ _ _
    · exact ⟨(rewinds_handle _).beat, (rewinds_handle _).rest⟩
  | locate =>
    simp only [Reader.step] at h
    split at h <;> cases h
    unfold Reader.locate
    split <;> exact ⟨rfl, by rintro ⟨⟩⟩
  | direct =>
    simp only [Reader.step] at h
    split at h <;> cases h
    simp only [Reader.direct]
    split
    · exact rewinds_sendError _ _ _
    · exact ⟨rfl, fun _ => rfl⟩
  | limitError =>
    simp only [Reader.step] at h
    split at h <;> cases h
    simp only [Reader.limitError]
    split <;> exact ⟨rfl, by rintro ⟨⟩⟩
  | start | send | reply =>
    simp only [Reader.step] at h
    split at h <;> cases h
    exact ⟨rfl, fun _ => rfl⟩
  | limitClose =>
    simp only [Reader.step] at h
    split at h <;> cases h
    exact ⟨rfl, by rintro ⟨⟩⟩
  | idleTimeout =>
    simp only [Reader.step] at h
    split at h
    · split at h <;> cases h
      exact ⟨rfl, by rintro ⟨⟩⟩
    · cases h

theorem idleSince_writer {a : WriterAct} (h : Writer.step w i c a = some r) :
    r.2.idleSince = c.idleSince := by
  cases a with
  | start =>
    simp only [Writer.step] at h
    split at h <;> cases h
    simp only [Writer.start]
    split <;> rfl
  | beat =>
    simp only [Writer.step] at h
    split at h
    · split at h <;> cases h
      rfl
    · cases h
  | pop =>
    simp only [Writer.step] at h
    split at h
    · rw [Option.map_eq_some_iff] at h
      obtain ⟨t, -, rfl⟩ := h
      rfl
    · cases h
  | pinged succeeds | wrote succeeds =>
    simp only [Writer.step] at h
    split at h <;> cases h
    cases succeeds <;> rfl

/-- When the two timers run out. -/
def Session.timers (c : Session E) : ℕ × ℕ := (c.nextBeat, c.idleSince)

theorem timers_handshake {a : HandshakeAct} (h : Handshake.step w c a = some r) :
    r.2.timers = c.timers := by
  cases a with
  | ipAdmission order =>
    simp only [Handshake.step, Handshake.ipAdmission, Option.ite_none_right_eq_some] at h
    obtain ⟨-, h⟩ := h
    split at h
    · cases h
      rfl
    · split at h
      · split at h <;> cases h <;> rfl
      · cases h
  | globalPermit =>
    simp only [Handshake.step, Option.ite_none_right_eq_some, Option.some.injEq] at h
    obtain ⟨-, rfl⟩ := h
    unfold Handshake.globalPermit
    split <;> rfl
  | authenticate =>
    simp only [Handshake.step, Option.ite_none_right_eq_some, Option.some.injEq] at h
    obtain ⟨-, rfl⟩ := h
    unfold Handshake.authenticate
    split <;> rfl
  | tenantPermit =>
    simp only [Handshake.step, Option.ite_none_right_eq_some, Option.some.injEq] at h
    obtain ⟨-, rfl⟩ := h
    unfold Handshake.tenantPermit
    split <;> rfl
  | countKind | countRejected =>
    simp only [Handshake.step] at h
    split at h <;> cases h
    rfl
  | upgrade | dropIp | dropGlobal | dropTenant =>
    simp only [Handshake.step, Option.ite_none_right_eq_some, Option.some.injEq] at h
    obtain ⟨-, rfl⟩ := h
    rfl

theorem timers_setup {a : SetupAct} (h : Setup.step w i c a = some r) : r.2.timers = c.timers := by
  cases a <;> simp only [Setup.step, Option.ite_none_right_eq_some, Option.some.injEq] at h <;>
    obtain ⟨-, rfl⟩ := h
  case openQueue =>
    simp only [Setup.openQueue]
    split <;> rfl
  case locate =>
    unfold Setup.locate
    split <;> rfl
  case ready =>
    unfold Setup.ready
    split <;> rfl
  all_goals rfl

theorem timers_fanout {a : FanoutAct} (h : Fanout.step w i c a = some r) : r.2.timers = c.timers := by
  cases a with
  | recv =>
    simp only [Fanout.step] at h
    split at h
    · unfold Fanout.recv at h
      split at h
      · cases h
      · split at h <;> cases h <;> rfl
    · cases h
  | forward =>
    simp only [Fanout.step] at h
    split at h <;> cases h
    simp only [Fanout.forward]
    split <;> rfl

theorem timers_supervise {a : SuperviseAct} (h : Supervise.step w i c a = some r) :
    r.2.timers = c.timers := by
  cases a with
  | cancel t =>
    simp only [Supervise.step] at h
    split at h
    · split at h
      · cases t <;> simp only [Supervise.cancel] at h <;> split at h <;> cases h <;> rfl
      · cases h
    · cases h
  | join =>
    simp only [Supervise.step] at h
    split at h
    · split at h <;> cases h
      rfl
    · cases h
  | select t =>
    simp only [Supervise.step, Option.ite_none_right_eq_some, Option.some.injEq] at h
    obtain ⟨-, rfl⟩ := h
    rfl
  | unregisterGet =>
    simp only [Supervise.step, Option.ite_none_right_eq_some, Option.some.injEq] at h
    obtain ⟨-, rfl⟩ := h
    rfl
  | unregisterRemove | close =>
    simp only [Supervise.step] at h
    split at h <;> cases h
    rfl

theorem setup_writer {a : SetupAct} (hc : c.Shaped) (h : Setup.step w i c a = some r) :
    r.2.writer = c.writer ∨ c.writer = .off ∧ r.2.writer = .spawned := by
  have hoff := hc.writer
  cases a <;> simp only [Setup.step, Option.ite_none_right_eq_some, Option.some.injEq] at h <;>
    obtain ⟨hst, rfl⟩ := h
  case openQueue =>
    simp only [Setup.openQueue]
    split <;> exact .inl rfl
  case locate =>
    unfold Setup.locate
    split <;> exact .inl rfl
  case ready =>
    unfold Setup.ready
    split <;> exact .inl rfl
  case spawnWriter => exact .inr ⟨hoff (by rw [hst]; decide), rfl⟩
  all_goals exact .inl rfl

/-- What writer, reader and timers look like after a step of another task of the connection. -/
structure Aloof (c c' : Session E) : Prop where
  timers : c'.timers = c.timers
  writer : c'.writer = c.writer ∨ c.writer = .off ∧ c'.writer = .spawned ∨ c'.writer = .cancelled
  reader : c'.reader = c.reader ∨ c.reader = .off ∧ c'.reader = .spawned ∨ c'.reader = .cancelled

theorem aloof_step {a : TaskAct} (hc : c.Shaped) (h : Session.step w i c a = some r)
    (hw : ∀ b, a ≠ .writer b) (hr : ∀ b, a ≠ .reader b) : Aloof c r.2 := by
  cases a with
  | handshake b =>
    have hf := Handshake.step_framed h
    exact ⟨timers_handshake h, .inl hf.writer, .inl hf.reader⟩
  | setup b =>
    have hoff := setup_reader hc h
    refine ⟨timers_setup h, (setup_writer hc h).imp_right .inl, ?_⟩
    exact (setup_tasks h).2.2.imp_right fun he => .inl ⟨hoff, he⟩
  | writer b => exact absurd rfl (hw b)
  | fanout b =>
    have hf := Fanout.step_framed h
    exact ⟨timers_fanout h, .inl hf.writer, .inl hf.reader⟩
  | reader b => exact absurd rfl (hr b)
  | supervise b =>
    obtain ⟨hw', -, hr'⟩ := supervise_tasks h
    exact ⟨timers_supervise h, hw'.imp_right .inr, hr'.imp_right .inr⟩
  | call b => cases h

/-! ### The heartbeat -/

def SocketEvent.isBegin : SocketEvent E → Bool
  | .began => true
  | _ => false

def SocketEvent.isBeat : SocketEvent E → Bool
  | .sent (.ping _) => true
  | _ => false

def SocketEvent.isHeard : SocketEvent E → Bool
  | .heard => true
  | _ => false

def SocketEvent.isGaveUp : SocketEvent E → Bool
  | .gaveUp => true
  | _ => false

theorem isBeat_intoWsMessage (m : OutboundMessage E) :
    (SocketEvent.sent m.intoWsMessage).isBeat = false := by
  cases m <;> rfl

/-- When the events of a kind happened. -/
def timesOf (kind : SocketEvent E → Bool) (es : List (ℕ × SocketEvent E)) : List ℕ :=
  (es.filter fun e => kind e.2).map Prod.fst

theorem timesOf_append (kind : SocketEvent E → Bool) (es es' : List (ℕ × SocketEvent E)) :
    timesOf kind (es ++ es') = timesOf kind es ++ timesOf kind es' := by
  rw [timesOf, List.filter_append, List.map_append]
  rfl

/-- The writer has not begun. -/
def WriterPc.isFresh : WriterPc E → Bool
  | .off | .spawned => true
  | _ => false

/-- The writer waits for a tick or for an item, or is writing one. -/
def WriterPc.isBeating : WriterPc E → Bool
  | .idle | .writing _ => true
  | _ => false

/-- The pings of a connection against the ticks of its timer. -/
structure Beats (period now : ℕ) (c : Session E) (es : List (ℕ × SocketEvent E)) : Prop where
  fresh : c.writer.isFresh = true → timesOf (·.isBegin) es = [] ∧ timesOf (·.isBeat) es = []
  beating : c.writer.isBeating = true → ∃ t, timesOf (·.isBegin) es = [t] ∧
    c.nextBeat = t + ((timesOf (·.isBeat) es).length + 1) * period
  pinging : c.writer = .pinging → ∃ t, timesOf (·.isBegin) es = [t] ∧
    c.nextBeat = t + ((timesOf (·.isBeat) es).length + 2) * period ∧
    t + ((timesOf (·.isBeat) es).length + 1) * period ≤ now
  schedule : ∀ k u, (timesOf (·.isBeat) es)[k]? = some u → ∃ t, timesOf (·.isBegin) es = [t] ∧
    t + (k + 1) * period ≤ u

variable {period idle now now' : ℕ} {es es' : List (ℕ × SocketEvent E)}

theorem Beats.init (hw : c.writer = .off) : Beats period now c [] := by
  refine ⟨fun _ => ⟨rfl, rfl⟩, ?_, ?_, ?_⟩
  · rw [hw]
    rintro ⟨⟩
  · rw [hw]
    rintro ⟨⟩
  · intro k u hk
    cases hk

/-- Steps that leave the writer alone, or spawn or cancel it. -/
theorem Beats.still (h : Beats period now c es) (hbegin : timesOf (·.isBegin) es' = timesOf (·.isBegin) es)
    (hbeat : timesOf (·.isBeat) es' = timesOf (·.isBeat) es) (hnext : c'.nextBeat = c.nextBeat)
    (hw : c'.writer = c.writer ∨ c.writer = .off ∧ c'.writer = .spawned ∨ c'.writer = .cancelled)
    (hnow : now ≤ now') : Beats period now' c' es' := by
  rcases hw with hw | ⟨hoff, hw⟩ | hw
  · refine ⟨?_, ?_, ?_, ?_⟩ <;> rw [hbegin, hbeat]
    · -- fresh
      rw [hw]
      exact h.fresh
    · -- beating
      rw [hw, hnext]
      exact h.beating
    · -- pinging
      rw [hw, hnext]
      intro hp
      obtain ⟨t, hb, hn, hle⟩ := h.pinging hp
      exact ⟨t, hb, hn, hle.trans hnow⟩
    · -- schedule
      exact h.schedule
  · obtain ⟨hb, hp⟩ := h.fresh (by rw [hoff]; rfl)
    refine ⟨fun _ => ⟨hbegin.trans hb, hbeat.trans hp⟩, ?_, ?_, ?_⟩
    · rw [hw]
      rintro ⟨⟩
    · rw [hw]
      rintro ⟨⟩
    · rw [hbegin, hbeat]
      exact h.schedule
  · refine ⟨?_, ?_, ?_, ?_⟩
    · rw [hw]
      rintro ⟨⟩
    · rw [hw]
      rintro ⟨⟩
    · rw [hw]
      rintro ⟨⟩
    · rw [hbegin, hbeat]
      exact h.schedule

/-- The writer stops. -/
theorem Beats.stop (h : Beats period now c es) (hw : c'.writer = .failed) : Beats period now' c' es := by
  refine ⟨?_, ?_, ?_, h.schedule⟩
  · rw [hw]
    rintro ⟨⟩
  · rw [hw]
    rintro ⟨⟩
  · rw [hw]
    rintro ⟨⟩

/-- The writer begins, and its first tick is one period away. -/
theorem Beats.begin (h : Beats period now c es) (hs : c.writer = .spawned)
    (hw : c'.writer = .idle ∧ c'.nextBeat = now + period ∨ c'.writer = .failed) :
    Beats period now c' (es ++ [(now, .began)]) := by
  obtain ⟨hb, hp⟩ := h.fresh (by rw [hs]; rfl)
  have hb' : timesOf (·.isBegin) (es ++ [((now, .began) : ℕ × SocketEvent E)]) = [now] := by
    rw [timesOf_append, hb]
    rfl
  have hp' : timesOf (·.isBeat) (es ++ [((now, .began) : ℕ × SocketEvent E)]) = [] := by
    rw [timesOf_append, hp]
    rfl
  refine ⟨?_, ?_, ?_, ?_⟩ <;> rw [hb', hp']
  · -- fresh
    rcases hw with ⟨hw, -⟩ | hw <;> rw [hw] <;> rintro ⟨⟩
  · -- beating
    intro hbeating
    rcases hw with ⟨-, hn⟩ | hw
    · exact ⟨now, rfl, by rw [hn, List.length_nil, Nat.zero_add, Nat.one_mul]⟩
    · rw [hw] at hbeating
      cases hbeating
  · -- pinging
    rcases hw with ⟨hw, -⟩ | hw <;> rw [hw] <;> rintro ⟨⟩
  · -- schedule
    intro k u hk
    cases hk

/-- The tick is over, the ping goes out. -/
theorem Beats.ping (h : Beats period now c es) (hs : c.writer = .pinging) (hw : c'.writer = .idle)
    (hnext : c'.nextBeat = c.nextBeat) : Beats period now c' (es ++ [(now, .sent (.ping []))]) := by
  obtain ⟨t, hb, hn, hle⟩ := h.pinging hs
  have hb' : timesOf (·.isBegin) (es ++ [((now, .sent (.ping [])) : ℕ × SocketEvent E)]) = [t] := by
    rw [timesOf_append, hb]
    rfl
  have hp' : timesOf (·.isBeat) (es ++ [((now, .sent (.ping [])) : ℕ × SocketEvent E)]) =
      timesOf (·.isBeat) es ++ [now] := by
    rw [timesOf_append]
    rfl
  refine ⟨?_, ?_, ?_, ?_⟩ <;> rw [hb', hp']
  · -- fresh
    rw [hw]
    rintro ⟨⟩
  · -- beating
    intro _
    exact ⟨t, rfl, by rw [hnext, hn, List.length_append, List.length_singleton]⟩
  · -- pinging
    rw [hw]
    rintro ⟨⟩
  · -- schedule
    intro k u hk
    rcases getElem?_concat_cases hk with hk | ⟨rfl, rfl⟩
    · obtain ⟨t', ht', hle'⟩ := h.schedule k u hk
      exact ⟨t', hb.symm.trans ht', hle'⟩
    · exact ⟨t, rfl, hle⟩

theorem beats_writer {a : WriterAct} (h : Beats w.app.config.heartbeatInterval w.now c es)
    (hs : Writer.step w i c a = some r) :
    Beats w.app.config.heartbeatInterval w.now r.2 (es ++ (a.events c).map fun e => (w.now, e)) := by
  cases a with
  | start =>
    simp only [Writer.step] at hs
    split at hs <;> cases hs
    rename_i hw
    refine h.begin hw ?_
    simp only [Writer.start]
    split
    · exact .inr rfl
    · exact .inl ⟨rfl, rfl⟩
  | beat =>
    simp only [Writer.step] at hs
    split at hs
    · rename_i hw
      split at hs <;> cases hs
      rename_i hdue
      obtain ⟨t, hb, hn⟩ := h.beating (by rw [hw]; rfl)
      rw [show (WriterAct.beat.events c).map (fun e => (w.now, e)) = [] from rfl, List.append_nil]
      refine ⟨by rintro ⟨⟩, by rintro ⟨⟩, fun _ => ⟨t, hb, ?_, hn ▸ hdue⟩, h.schedule⟩
      rw [hn, Nat.add_assoc, ← Nat.succ_mul]
    · cases hs
  | pinged succeeds =>
    simp only [Writer.step] at hs
    split at hs <;> cases hs
    rename_i hw
    cases succeeds with
    | false =>
      rw [show ((WriterAct.pinged false).events c).map (fun e => (w.now, e)) = [] from rfl,
        List.append_nil]
      exact h.stop rfl
    | true => exact h.ping hw rfl rfl
  | pop =>
    simp only [Writer.step] at hs
    split at hs
    · rename_i hw
      rw [Option.map_eq_some_iff] at hs
      obtain ⟨t, -, rfl⟩ := hs
      rw [show (WriterAct.pop.events c).map (fun e => (w.now, e)) = [] from rfl, List.append_nil]
      exact ⟨by rintro ⟨⟩, fun _ => h.beating (by rw [hw]; rfl), by rintro ⟨⟩, h.schedule⟩
    · cases hs
  | wrote succeeds =>
    simp only [Writer.step] at hs
    split at hs <;> cases hs
    rename_i x hw
    cases succeeds with
    | false =>
      rw [show ((WriterAct.wrote false).events c).map (fun e => (w.now, e)) = [] from rfl,
        List.append_nil]
      exact h.stop rfl
    | true =>
      have hhand : c.hand = [x] := by rw [Session.hand, hw]
      have hbegin : timesOf (·.isBegin) (((WriterAct.wrote true).events c).map fun e => (w.now, e)) = [] := by
        rw [WriterAct.events, hhand]
        rfl
      have hbeat : timesOf (·.isBeat) (((WriterAct.wrote true).events c).map fun e => (w.now, e)) = [] := by
        simp [WriterAct.events, hhand, timesOf, isBeat_intoWsMessage]
      refine ⟨by rintro ⟨⟩, ?_, by rintro ⟨⟩, ?_⟩ <;>
        rw [timesOf_append, timesOf_append, hbegin, hbeat, List.append_nil, List.append_nil]
      · intro _
        exact h.beating (by rw [hw]; rfl)
      · exact h.schedule

/-! ### The idle timeout -/

/-- The reader will not step again. -/
def ReaderPc.isOver : ReaderPc E → Bool
  | .ended _ | .cancelled => true
  | _ => false

theorem isOver_of_step {a : ReaderAct} (h : Reader.step w i c a = some r) : c.reader.isOver = false := by
  cases hr : c.reader with
  | ended how => cases a <;> simp [Reader.step, hr] at h
  | cancelled => cases a <;> simp [Reader.step, hr] at h
  | _ => rfl

/-- The frames of a connection against the end of its reader's wait. -/
structure Rests (idle now : ℕ) (c : Session E) (es : List (ℕ × SocketEvent E)) : Prop where
  past : ∀ t ∈ timesOf (·.isHeard) es, t ≤ now
  resting : c.reader = .idle → ∀ t ∈ timesOf (·.isHeard) es, t ≤ c.idleSince
  timely : ∀ u ∈ timesOf (·.isGaveUp) es, ∀ t ∈ timesOf (·.isHeard) es, t + idle ≤ u
  ended : c.reader.isOver = false → timesOf (·.isGaveUp) es = []

theorem Rests.init (hr : c.reader = .off) : Rests idle now c [] := by
  refine ⟨?_, ?_, ?_, fun _ => rfl⟩
  · intro t ht
    cases ht
  · rw [hr]
    rintro ⟨⟩
  · intro u hu
    cases hu

/-- Steps that leave the reader alone, or spawn or cancel it. -/
theorem Rests.still (h : Rests idle now c es) (hheard : timesOf (·.isHeard) es' = timesOf (·.isHeard) es)
    (hgave : timesOf (·.isGaveUp) es' = timesOf (·.isGaveUp) es) (hsince : c'.idleSince = c.idleSince)
    (hr : c'.reader = c.reader ∨ c.reader = .off ∧ c'.reader = .spawned ∨ c'.reader = .cancelled)
    (hnow : now ≤ now') : Rests idle now' c' es' := by
  refine ⟨?_, ?_, ?_, ?_⟩
  · -- past
    rw [hheard]
    exact fun t ht => (h.past t ht).trans hnow
  · -- resting
    rw [hheard, hsince]
    rcases hr with hr | ⟨-, hr⟩ | hr <;> rw [hr]
    · exact h.resting
    · rintro ⟨⟩
    · rintro ⟨⟩
  · -- timely
    rw [hheard, hgave]
    exact h.timely
  · -- ended
    rw [hgave]
    rcases hr with hr | ⟨hoff, hr⟩ | hr <;> rw [hr]
    · exact h.ended
    · exact fun _ => h.ended (by rw [hoff]; rfl)
    · rintro ⟨⟩

theorem rests_reader {a : ReaderAct} (h : Rests w.app.config.idleTimeout w.now c es)
    (hs : Reader.step w i c a = some r) :
    Rests w.app.config.idleTimeout w.now r.2 (es ++ a.events.map fun e => (w.now, e)) := by
  have hnone := h.ended (isOver_of_step hs)
  have hrest := (rewinds_reader hs).rest
  cases a with
  | frame f =>
    have hheard : timesOf (·.isHeard) (es ++ (ReaderAct.frame f).events.map fun e =>
        ((w.now, e) : ℕ × SocketEvent E)) = timesOf (·.isHeard) es ++ [w.now] := timesOf_append _ _ _
    have hgave : timesOf (·.isGaveUp) (es ++ (ReaderAct.frame f).events.map fun e =>
        ((w.now, e) : ℕ × SocketEvent E)) = [] := by
      rw [timesOf_append, hnone]
      rfl
    have hpast : ∀ t ∈ timesOf (·.isHeard) es ++ [w.now], t ≤ w.now := by
      intro t ht
      rcases List.mem_append.mp ht with ht | ht
      · exact h.past t ht
      · exact (List.mem_singleton.mp ht).le
    refine ⟨?_, ?_, ?_, fun _ => hgave⟩
    · rw [hheard]
      exact hpast
    · intro hidle
      rw [hheard, hrest hidle]
      exact hpast
    · rw [hgave]
      intro u hu
      cases hu
  | idleTimeout =>
    simp only [Reader.step] at hs
    split at hs
    · rename_i hidle
      split at hs <;> cases hs
      rename_i hdue
      have hheard : timesOf (·.isHeard) (es ++ ReaderAct.idleTimeout.events.map fun e =>
          ((w.now, e) : ℕ × SocketEvent E)) = timesOf (·.isHeard) es := by
        rw [timesOf_append]
        exact List.append_nil _
      have hgave : timesOf (·.isGaveUp) (es ++ ReaderAct.idleTimeout.events.map fun e =>
          ((w.now, e) : ℕ × SocketEvent E)) = [w.now] := by
        rw [timesOf_append, hnone]
        rfl
      refine ⟨?_, by rintro ⟨⟩, ?_, by rintro ⟨⟩⟩
      · rw [hheard]
        exact h.past
      · rw [hheard, hgave]
        intro u hu t ht
        rw [List.mem_singleton.mp hu]
        have hle := h.resting hidle t ht
        omega
    · cases hs
  | start | tenantRate | locate | send | direct | reply | limitError | limitClose =>
    simp only [ReaderAct.events, List.map_nil, List.append_nil]
    exact ⟨h.past, fun hidle t ht => (hrest hidle).symm ▸ h.past t ht, h.timely, fun _ => hnone⟩

/-! ### Both timers, in every run -/

/-- A writer begins and sends, and nothing else. -/
theorem timesOf_writer {kind : SocketEvent E → Bool} (hbegan : kind .began = false)
    (hsent : ∀ m, kind (.sent m) = false) (a : WriterAct) (c : Session E) (now : ℕ) :
    timesOf kind ((a.events c).map fun e => (now, e)) = [] := by
  have hnone : ∀ e ∈ a.events c, kind e = false := by
    intro e he
    unfold WriterAct.events at he
    split at he
    · rw [List.mem_singleton.mp he]
      exact hbegan
    · rw [List.mem_singleton.mp he]
      exact hsent _
    · obtain ⟨x, -, rfl⟩ := List.mem_map.mp he
      exact hsent _
    · cases he
  rw [timesOf, List.map_eq_nil_iff, List.filter_eq_nil_iff]
  intro e he
  obtain ⟨x, hx, rfl⟩ := List.mem_map.mp he
  rw [hnone x hx]
  exact Bool.false_ne_true

/-- A reader hears and gives up, and nothing else. -/
theorem timesOf_reader {kind : SocketEvent E → Bool} (hheard : kind .heard = false)
    (hgave : kind .gaveUp = false) (a : ReaderAct) (now : ℕ) :
    timesOf kind (a.events.map fun e => (now, e)) = [] := by
  have hnone : ∀ e ∈ (a.events : List (SocketEvent E)), kind e = false := by
    intro e he
    unfold ReaderAct.events at he
    split at he
    · rw [List.mem_singleton.mp he]
      exact hheard
    · rw [List.mem_singleton.mp he]
      exact hgave
    · cases he
  rw [timesOf, List.map_eq_nil_iff, List.filter_eq_nil_iff]
  intro e he
  obtain ⟨x, hx, rfl⟩ := List.mem_map.mp he
  rw [hnone x hx]
  exact Bool.false_ne_true

/-- Neither timer is ever early. -/
structure Timed (config : Config) (now : ℕ) (c : Session E) (es : List (ℕ × SocketEvent E)) : Prop where
  beats : Beats config.heartbeatInterval now c es
  rests : Rests config.idleTimeout now c es

theorem Timed.session {a : TaskAct} (h : Timed w.app.config w.now c es) (hc : c.Shaped)
    (hs : Session.step w i c a = some r) :
    Timed w.app.config w.now r.2 (es ++ Task.socket w i (.ws c) a (.ws r.2)) := by
  have hkind : ∀ {kind : SocketEvent E → Bool} {added : List (ℕ × SocketEvent E)},
      timesOf kind added = [] → timesOf kind (es ++ added) = timesOf kind es := by
    intro kind added hadded
    rw [timesOf_append, hadded, List.append_nil]
  by_cases hwriter : ∃ b, a = .writer b
  · obtain ⟨b, rfl⟩ := hwriter
    have hf := Writer.step_framed hs
    exact ⟨beats_writer h.beats hs, h.rests.still (hkind (timesOf_writer rfl (fun _ => rfl) b c w.now))
      (hkind (timesOf_writer rfl (fun _ => rfl) b c w.now)) (idleSince_writer hs) (.inl hf.reader) le_rfl⟩
  · by_cases hreader : ∃ b, a = .reader b
    · obtain ⟨b, rfl⟩ := hreader
      have hk := (Reader.step_framed hs).kept
      exact ⟨h.beats.still (hkind (timesOf_reader rfl rfl b w.now)) (hkind (timesOf_reader rfl rfl b w.now))
        (rewinds_reader hs).beat (.inl hk.writer) le_rfl, rests_reader h.rests hs⟩
    · have hnone : Task.socket w i (.ws c) a (.ws r.2) = [] := by
        cases a with
        | writer b => exact absurd ⟨b, rfl⟩ hwriter
        | reader b => exact absurd ⟨b, rfl⟩ hreader
        | _ => rfl
      have ha := aloof_step hc hs (fun b e => hwriter ⟨b, e⟩) fun b e => hreader ⟨b, e⟩
      rw [hnone, List.append_nil]
      exact ⟨h.beats.still rfl rfl (congrArg Prod.fst ha.timers) ha.writer le_rfl,
        h.rests.still rfl rfl (congrArg Prod.snd ha.timers) ha.reader le_rfl⟩

theorem timed_run {s : ServerState E × List (ℕ × ℕ × SocketEvent E)} (h : SocketRuns config s)
    (hc : s.1.session i = some c) : Timed config s.1.shared.now c (entriesOf s.2 i) := by
  refine (Prog.journal_rule (K := fun w _ l es => ∀ c, l = Task.ws c → Timed config w.now c es)
    rfl ?_ ?_ ?_ ?_ h).each i _ (session_eq_some.mp hc) c rfl
  · intro p request _ c hc
    cases request with
    | ws ip query =>
      cases hc
      exact ⟨.init rfl, .init rfl⟩
    | api authorization request => cases hc
  · intro p i l a w' l' es hr _ hl (hs : Task.step p.shared i l a = some (w', l')) hK c' hc'
    subst hc'
    cases l with
    | http d =>
      obtain ⟨d', b, hd, -⟩ := step_http hs
      cases hd
    | ws c =>
      have hnow := now_step hs
      obtain ⟨c'', hc, hstep⟩ := step_ws hs
      cases hc
      have hconfig : p.shared.app.config = config := config_run hr
      have hK' : Timed p.shared.app.config p.shared.now c es := by
        rw [hconfig]
        exact hK c rfl
      have hnew := hK'.session (shaped_run hr (session_eq_some.mpr hl)) hstep
      rw [hconfig] at hnew
      rw [hnow]
      exact hnew
  · intro p i l a w' l' j m es _ _ _ _ _ (hs : Task.step p.shared i l a = some (w', l')) hK
    rw [now_step hs]
    exact hK
  · intro w d w' j m es he hK c hc
    cases he
    have hle : w.now ≤ w.now + d := Nat.le_add_right _ _
    exact ⟨(hK c hc).beats.still rfl rfl rfl (.inl rfl) hle,
      (hK c hc).rests.still rfl rfl rfl (.inl rfl) hle⟩

/-- The timers seen from a client: the pings that come keep their distance, and the server does not give
    up a client that it heard within the idle timeout. -/
structure Timely (config : Config) (es : List (ℕ × SocketEvent E)) : Prop where
  beats : ∀ k u, (timesOf (·.isBeat) es)[k]? = some u → ∃ t, timesOf (·.isBegin) es = [t] ∧
    t + (k + 1) * config.heartbeatInterval ≤ u
  patient : ∀ u ∈ timesOf (·.isGaveUp) es, ∀ t ∈ timesOf (·.isHeard) es, t + config.idleTimeout ≤ u

theorem timely {s : ServerState E × List (ℕ × ℕ × SocketEvent E)} (h : SocketRuns config s)
    (hc : s.1.session i = some c) : Timely config (entriesOf s.2 i) :=
  ⟨(timed_run h hc).beats.schedule, (timed_run h hc).rests.timely⟩

/-- A client that sends a ping after three seconds and is given up after a minute, when the server pings
    it. -/
def quietClient : List (ServerAct Ext.plain) :=
  [.spawn (loginAs "alice")] ++ steps 0 (handshakeSteps ++ registerSteps ++ spawnSteps) ++
    [.env (3 * 1000000000), .run 0 (.reader (.frame (.ping []))), .env (57 * 1000000000),
      .run 0 (.writer .beat), .run 0 (.writer (.pinged true)), .run 0 (.reader .idleTimeout)]

theorem timely_quietClient : ∃ es : List (ℕ × SocketEvent Ext.plain),
    timesOf (·.isBeat) es = [60 * 1000000000] ∧ timesOf (·.isGaveUp) es = [60 * 1000000000] ∧
      timesOf (·.isHeard) es = [3 * 1000000000] ∧ Timely Config.plain es := by
  obtain ⟨p, log, h, hcheck⟩ := exec_log_check (server Ext.plain).next (journal Task.socket)
    (fun _ _ => true) (boot Ext.plain Config.plain) quietClient
    (fun (p : ServerState Ext.plain) log => (p.session 0).isSome &&
      decide (timesOf (·.isBeat) (entriesOf log 0) = [60 * 1000000000] ∧
        timesOf (·.isGaveUp) (entriesOf log 0) = [60 * 1000000000] ∧
        timesOf (·.isHeard) (entriesOf log 0) = [3 * 1000000000]))
    (by decide +kernel)
  obtain ⟨hsome, hc⟩ := Bool.and_eq_true_iff.mp hcheck
  obtain ⟨c, hc0⟩ := Option.isSome_iff_exists.mp hsome
  obtain ⟨hbeat, hgave, hheard⟩ := of_decide_eq_true hc
  have hrun : SocketRuns Config.plain (p, log) := h.mono fun _ _ _ => trivial
  exact ⟨entriesOf log 0, hbeat, hgave, hheard, timely hrun hc0⟩

end WsServer
