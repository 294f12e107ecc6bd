import WsServer.Counters
import WsServer.Delivery

/-! What a subscriber loses. `Cursor` splits the publishes on a key into what the fanout forwarded, what
    it skipped as lagged, what it holds and what is pending; here the skipped ones are compared with
    what the fanout counted as dropped, below `2^64` where the counter of the source wraps. -/

namespace WsServer

open Lib

variable {E : Ext} {w : World E} {i : ℕ} {c : Session E} {r : World E × Session E} {config : Config}
  {p : ServerState E}

/-- The fanout task is running. -/
def Session.isFanning (c : Session E) : Bool :=
  match c.fanout with
  | .waiting | .holding _ => true
  | _ => false

/-- The fanout ended on a message that did not fit. -/
def Session.isStopped (c : Session E) : Bool :=
  match c.fanout with
  | .stopped _ => true
  | _ => false

/-- The messages that a connection missed: skipped as lagged, or not fitting at the end. -/
def Session.missed (c : Session E) : ℕ := c.passed.countP (fun e => !e.2) + c.isStopped.toNat

/-- What a step of the fanout of connection `i` adds to `dropped_messages`. -/
def fanoutDrops (i : ℕ) (p : ServerState E) (a : ServerAct E) (p' : ServerState E) : List ℕ :=
  match a with
  | .run j (.fanout _) =>
    if j = i then
      [p'.shared.app.metrics.droppedMessages - p.shared.app.metrics.droppedMessages]
    else []
  | _ => []

/-- How many messages were overwritten before the fanout of connection `i` received them. -/
def ServerState.lag (p : ServerState E) (i : ℕ) : ℕ :=
  match p.session i with
  | some c =>
    match p.shared.channels[c.chan]? with
    | some cl =>
      match cl.chan.rxs.lookup i with
      | some pos => cl.chan.oldest - pos
      | none => 0
    | none => 0
  | none => 0

/-- Whenever the fanout of connection `i` receives, at most one message was overwritten before it. -/
def lagsOne (i : ℕ) (p : ServerState E) : ServerAct E → Bool
  | .run j (.fanout .recv) => j ≠ i || p.lag i ≤ 1
  | _ => true

/-- The messages on their way to connection `i`: waiting in the channel, overwritten or not, or in the
    hand of its fanout. -/
def ServerState.waiting (p : ServerState E) (i : ℕ) (c : Session E) : ℕ :=
  ((p.shared.wiring.pending c.chan i).getD []).length + c.inHand.length

/-- Every message published on the key of connection `i` since it subscribed was forwarded, was counted
    as dropped by its fanout, or is on its way. -/
def DropsCounted (i : ℕ) (p : ServerState E) (drops : List ℕ) : Prop :=
  ∀ c, p.session i = some c → c.isFanning = true →
    (p.shared.wiring.seqsOn c.topicKey c.subMark).length =
      (forwarded (p.shared.queues i)).length + drops.sum + p.waiting i c

theorem missed_congr {c' : Session E} (hpassed : c'.passed = c.passed) (hfanout : c'.fanout = c.fanout) :
    c'.missed = c.missed := by
  rw [Session.missed, Session.missed, Session.isStopped, Session.isStopped, hpassed, hfanout]

/-- A lag of one message counts once, as does a message that does not fit. -/
theorem missed_fanout {a : FanoutAct} (h : Fanout.step w i c a = some r)
    (hlag : a = .recv → ∀ cl pos, w.channels[c.chan]? = some cl → cl.chan.rxs.lookup i = some pos →
      cl.chan.oldest ≤ pos + 1) :
    r.2.missed =
      c.missed + (r.1.app.metrics.droppedMessages - w.app.metrics.droppedMessages) := by
  cases a with
  | recv =>
    simp only [Fanout.step] at h
    split at h
    · rename_i hwaiting
      have hstopped : c.isStopped = false := by rw [Session.isStopped, hwaiting]
      simp only [Fanout.recv] at h
      split at h
      · cases h
      · rename_i cl hcl
        split at h
        · cases h
        · cases h
          simp [Session.missed, Session.isStopped, hwaiting, World.onChannel, List.countP_append]
        · rename_i n b hrecv
          have hone : n = 1 := by
            simp only [Broadcast.recv] at hrecv
            split at hrecv
            · cases hrecv
            · rename_i pos hpos
              have hle := hlag rfl cl pos hcl hpos
              split at hrecv
              · simp only [Option.some.injEq, Prod.mk.injEq, Recv.lagged.injEq] at hrecv
                omega
              · split at hrecv <;> cases hrecv
          obtain ⟨l, hl, -, hlen, -⟩ := Broadcast.recv_lagged hrecv
          cases h
          simp only [Session.missed, Session.isStopped, hwaiting, List.countP_append, hl,
            Option.getD_some, List.countP_map]
          have hall : (l.take n).countP ((fun e => !e.2) ∘ fun m : Sent E => (m.seq, false)) = 1 := by
            rw [show ((fun e => !e.2) ∘ fun m : Sent E => (m.seq, false)) = fun _ => true from rfl,
              List.countP_true, List.length_take]
            omega
          rw [hall]
          simp [World.withMetrics, World.onChannel, Metrics.messageDropped]
    · cases h
  | forward =>
    simp only [Fanout.step] at h
    split at h
    · rename_i m hholding
      cases h
      have hstopped : c.isStopped = false := by rw [Session.isStopped, hholding]
      simp only [Fanout.forward, World.sendEncoded]
      rcases World.trySend_cases w i ⟨.binary m.bytes, .topic m.seq⟩ with ⟨q, -, ht⟩ | ⟨-, ht⟩
      · simp [ht, Session.missed, Session.isStopped, hholding, World.setQueue]
      · simp [ht, Session.missed, Session.isStopped, hholding, World.dropRx, World.onChannel,
          World.withMetrics, Metrics.messageDropped]
    · cases h

/-- No other task of a connection makes it miss anything. -/
theorem missed_other {a : TaskAct} (hc : c.Shaped) (ha : ∀ b, a ≠ .fanout b)
    (h : Session.step w i c a = some r) : r.2.missed = c.missed := by
  cases a with
  | handshake b =>
    have hf := Handshake.step_framed h
    exact missed_congr hf.passed hf.fanout
  | writer b =>
    have hf := Writer.step_framed h
    exact missed_congr hf.passed hf.fanout
  | fanout b => exact (ha b rfl).elim
  | reader b =>
    have hk := (Reader.step_framed h).kept
    exact missed_congr hk.passed hk.fanout
  | call b => cases h
  | setup b =>
    have hf := Setup.step_framed h
    rcases (setup_tasks h).2.1 with hfan | ⟨hst, hfan⟩
    · exact missed_congr hf.passed hfan
    · have hoff : c.fanout = .off := hc.fanout (by rw [hst]; decide)
      rw [Session.missed, Session.missed, Session.isStopped, Session.isStopped, hf.passed, hfan, hoff]
  | supervise b =>
    have hf := Supervise.step_framed h
    rcases supervise_fanout h with ⟨-, hfan⟩ | ⟨-, hfan, hfan'⟩
    · exact missed_congr hf.passed hfan
    · rw [Session.missed, Session.missed, Session.isStopped, Session.isStopped, hf.passed, hfan,
        hfan']

/-- What connection `i` missed so far. -/
def ServerState.missed (p : ServerState E) (i : ℕ) : ℕ :=
  match p.session i with
  | some c => c.missed
  | none => 0

theorem missed_of_threads {p' : ServerState E} (h : p'.threads[i]? = p.threads[i]?) :
    p'.missed i = p.missed i := by
  simp only [ServerState.missed, ServerState.session, h]

/-- What one step makes connection `i` miss is what its fanout counts in it. -/
theorem missed_step {p' : ServerState E} {a : ServerAct E}
    (hr : Runs config (fun p a => lagsOne i p a = true) p) (hok : lagsOne i p a = true)
    (h : (server E).next p a = some p') :
    p'.missed i = p.missed i + (fanoutDrops i p a p').sum := by
  cases a with
  | spawn request =>
    cases h
    refine Eq.trans ?_ (Nat.add_zero (p.missed i)).symm
    rcases Nat.lt_trichotomy i p.threads.length with hlt | heq | hgt
    · exact missed_of_threads (List.getElem?_append_left hlt)
    · subst heq
      cases request <;> simp [ServerState.missed, ServerState.session, server, Task.start,
        Session.arrive, Session.missed, Session.isStopped]
    · refine missed_of_threads ?_
      rw [List.getElem?_eq_none hgt.le, List.getElem?_eq_none]
      simp only [List.length_append, List.length_singleton]
      omega
  | env d =>
    obtain ⟨w', -, rfl⟩ := Prog.next_env h
    rfl
  | run j b =>
    obtain ⟨l, w', l', hl, (hs : Task.step p.shared j l b = some (w', l')), rfl⟩ := Prog.next_run h
    by_cases hij : j = i
    · -- only the own fanout counts
      subst hij
      have hlt := (List.getElem?_eq_some_iff.mp hl).1
      cases l with
      | http d =>
        obtain ⟨d', e, rfl, rfl, -⟩ := step_http hs
        have hbefore : p.missed j = 0 := by simp [ServerState.missed, ServerState.session, hl]
        have hafter : ServerState.missed ⟨w', p.threads.set j (Task.http d')⟩ j = 0 := by
          simp [ServerState.missed, ServerState.session, hlt]
        rw [hbefore, hafter]
        rfl
      | ws c =>
        obtain ⟨c', rfl, hstep⟩ := step_ws hs
        have hc := session_eq_some.mpr hl
        have hbefore : p.missed j = c.missed := by rw [ServerState.missed, hc]
        have hafter : ServerState.missed ⟨w', p.threads.set j (Task.ws c')⟩ j = c'.missed := by
          simp [ServerState.missed, ServerState.session, hlt]
        rw [hbefore, hafter]
        by_cases hb : ∃ e, b = .fanout e
        · obtain ⟨e, rfl⟩ := hb
          have hlag : e = .recv → ∀ cl pos, p.shared.channels[c.chan]? = some cl →
              cl.chan.rxs.lookup j = some pos → cl.chan.oldest ≤ pos + 1 := by
            rintro rfl cl pos hcl hpos
            simp only [lagsOne, ne_eq, not_true_eq_false, decide_false, Bool.false_or,
              decide_eq_true_eq, ServerState.lag, hc, hcl, hpos] at hok
            omega
          rw [missed_fanout hstep hlag, fanoutDrops, if_pos rfl, List.sum_singleton]
        · have hmissed := missed_other (shaped_run hr hc) (fun e he => hb ⟨e, he⟩) hstep
          dsimp only at hmissed
          rw [hmissed]
          cases b with
          | fanout e => exact (hb ⟨e, rfl⟩).elim
          | _ => rfl
    · -- somebody else's step
      rw [missed_of_threads (List.getElem?_set_ne hij)]
      cases b with
      | fanout e => rw [fanoutDrops, if_neg hij]; rfl
      | _ => rfl

/-- The runs with the increments of `dropped_messages` by the fanout of connection `i`. -/
def DropRuns (config : Config) (i : ℕ) (ok : ServerState E → ServerAct E → Bool)
    (p : ServerState E) (drops : List ℕ) : Prop :=
  LogReach (server E).next (fanoutDrops i) (fun p a => ok p a = true) (boot E config) (p, drops)

theorem missed_run {drops : List ℕ} (h : DropRuns config i (lagsOne i) p drops) :
    p.missed i = drops.sum := by
  refine LogReach.invariant (I := fun (p : ServerState E) drops => p.missed i = drops.sum) ?_ ?_ h
  · simp [ServerState.missed, ServerState.session, boot]
  · intro p log a p' hr hI hok hs
    rw [missed_step hr.reach hok hs, hI, List.sum_append]

/-- While each lag is of one message, every message is accounted for. -/
theorem drop_accounting {drops : List ℕ} (h : DropRuns config i (lagsOne i) p drops) :
    DropsCounted i p drops := by
  intro c hc hfan
  have hcursor := (cursor_run h.reach).session i c hc
  have hlisten : c.listens = true := by
    unfold Session.isFanning at hfan
    unfold Session.listens
    split at hfan <;> simp_all
  have hstopped : c.isStopped = false := by
    unfold Session.isFanning at hfan
    unfold Session.isStopped
    split at hfan <;> simp_all
  obtain ⟨l, hl, hall, -⟩ := hcursor.live hlisten
  have hmissed : c.passed.countP (fun e => !e.2) = drops.sum := by
    rw [← missed_run h, ServerState.missed, hc]
    simp [Session.missed, hstopped]
  have hsplit := List.length_eq_countP_add_countP (fun e : ℕ × Bool => e.2) (l := c.passed)
  have hfwd := congrArg List.length hcursor.forwarded
  simp only [List.length_map, List.length_append, ← List.countP_eq_length_filter] at hfwd
  rw [hall, ServerState.waiting, show p.shared.wiring.pending c.chan i = some l from hl,
    Option.getD_some]
  simp only [List.length_append, List.length_map]
  simp only [Bool.not_eq_true, Bool.decide_eq_false] at hsplit
  omega

/-- A topic channel that keeps one message. -/
def Config.narrow : Config := { Config.plain with topicChannelCapacity := 1 }

/-- A subscriber, and `n` messages for him before his fanout looks. -/
def fallBehind (n : ℕ) : List (ServerAct Ext.plain) :=
  subscriberReady ++ (List.range n).flatMap (fun k =>
    .spawn (.api none (.publish ⟨none, none, "hi"⟩)) ::
      steps (k + 1) [.call .resolve, .call .locate, .call .send]) ++ steps 0 [.fanout .recv]

theorem drop_accounting_two : ∃ (p : ServerState Ext.plain) (drops : List ℕ),
    (p.session 0).any Session.isFanning = true ∧ drops = [1] ∧ DropsCounted 0 p drops := by
  obtain ⟨p, drops, hp, hc⟩ := exec_log_check (server Ext.plain).next (fanoutDrops 0) (lagsOne 0)
    (boot Ext.plain Config.narrow) (fallBehind 2)
    (fun (p : ServerState Ext.plain) drops => (p.session 0).any Session.isFanning && decide (drops = [1]))
    (by decide +kernel)
  rw [Bool.and_eq_true, decide_eq_true_eq] at hc
  exact ⟨p, drops, hc.1, hc.2, drop_accounting hp⟩

/-- A lag of two messages is one drop. -/
theorem drops_not_counted : ¬ ∀ (E : Ext) (config : Config) (i : ℕ) (p : ServerState E)
    (drops : List ℕ), DropRuns config i (fun _ _ => true) p drops → DropsCounted i p drops := by
  intro hcounted
  obtain ⟨p, drops, hp, hc⟩ := exec_log_check (server Ext.plain).next (fanoutDrops 0)
    (fun _ _ => true) (boot Ext.plain Config.narrow) (fallBehind 3)
    (fun (p : ServerState Ext.plain) drops => (ServerState.session p 0).any fun c => c.isFanning &&
      decide ((p.shared.wiring.seqsOn c.topicKey c.subMark).length = 3 ∧
        (forwarded (p.shared.queues 0)).length = 0 ∧ drops = [1] ∧ p.waiting 0 c = 1))
    (by decide +kernel)
  simp only [Option.any_eq_true, Bool.and_eq_true, decide_eq_true_eq] at hc
  obtain ⟨c, hs, hfan, hseqs, hforwarded, hdrops, hwaiting⟩ := hc
  have hsum := hcounted Ext.plain Config.narrow 0 p drops hp c hs hfan
  rw [hseqs, hforwarded, hdrops, hwaiting] at hsum
  cases hsum

end WsServer
