import WsServer.Closing
import WsServer.Lib.Journal

/-! What goes out on a socket. The writer takes the items of its queue one by one and writes each as it
    comes, with the heartbeat's pings between them. So a client is sent a beginning of its queue in the
    order of the queue, and no ping before its time; what is not written yet is in the writer's hand or
    in the queue. -/

namespace WsServer

open Lib

variable {E : Ext} {w : World E} {i : ℕ} {c : Session E} {r : World E × Session E} {config : Config}
  {p : ServerState E}

/-! ### From the queue to the writer -/

/-- Written, in hand, and in the queue, one behind the other, until the queue is closed. -/
structure Piped (q : Queue (Item E)) (c : Session E) : Prop where
  written : c.written ++ c.hand <+: q.placed
  closed : q.isOpen = false → q.buf = []
  live : q.isOpen = true → q.placed = c.written ++ c.hand ++ q.buf

theorem Piped.still {q : Queue (Item E)} {c' : Session E} (h : Piped q c)
    (hwh : c'.written ++ c'.hand = c.written ++ c.hand) : Piped q c' :=
  ⟨by rw [hwh]; exact h.written, h.closed, by rw [hwh]; exact h.live⟩

theorem Piped.push {q q' : Queue (Item E)} {x : Item E} (h : Piped q c) (hq : q.trySend x = .ok q') :
    Piped q' c := by
  obtain ⟨ho, -, rfl⟩ := Queue.trySend_ok hq
  refine ⟨h.written.trans (List.prefix_append _ _), ?_, ?_⟩
  · intro hc
    rw [ho] at hc
    cases hc
  · intro _
    rw [h.live ho, List.append_assoc]

theorem Piped.grew {w' : World E} {P : Item E → Prop} (h : Piped (w.queues i) c)
    (hg : World.Grew w w' i P) : Piped (w'.queues i) c := by
  rcases hg with hq | ⟨x, -, hq⟩
  · rw [hq]
    exact h
  · exact h.push hq

/-- The queue is closed, and what the writer had in hand is lost with it. -/
theorem Piped.close {q : Queue (Item E)} {c' : Session E} (h : Piped q c)
    (hwritten : c'.written = c.written) (hhand : c'.hand = []) : Piped q.close c' := by
  refine ⟨?_, fun _ => rfl, ?_⟩
  · rw [hwritten, hhand, List.append_nil]
    exact (List.prefix_append _ _).trans h.written
  · rintro ⟨⟩

/-- A queue whose consumer has not begun. -/
theorem Piped.before {q : Queue (Item E)} (hwritten : c.written = []) (hhand : c.hand = [])
    (hclosed : q.isOpen = false → q.buf = []) (hlive : q.isOpen = true → q.placed = q.buf) :
    Piped q c := by
  refine ⟨?_, hclosed, ?_⟩
  · rw [hwritten, hhand]
    exact List.nil_prefix
  · rw [hwritten, hhand]
    exact hlive

theorem piped_pop {x : Item E} {q : Queue (Item E)} (h : Piped (w.queues i) c)
    (hw : c.writer = .idle) (hq : (w.queues i).recv = some (x, q)) :
    Piped q { c with writer := .writing x } := by
  obtain ⟨hbuf, hsame⟩ := Queue.recv_some hq
  have hopen : (w.queues i).isOpen = true := by
    by_contra hno
    rw [h.closed (by simpa using hno)] at hbuf
    cases hbuf
  have hhand : c.hand = [] := by rw [Session.hand, hw]
  have hplaced : q.placed = c.written ++ [x] ++ q.buf := by
    have hlive := h.live hopen
    rw [hhand, List.append_nil, hbuf] at hlive
    rw [hsame, List.append_assoc]
    exact hlive
  refine ⟨⟨q.buf, hplaced.symm⟩, ?_, fun _ => hplaced⟩
  intro hc
  have hno : (w.queues i).isOpen = false := by
    rw [hsame] at hc
    exact hc
  rw [hno] at hopen
  cases hopen

theorem piped_writer {a : WriterAct} (h : Piped (w.queues i) c) (hs : Writer.step w i c a = some r) :
    Piped (r.1.queues i) r.2 := by
  cases a with
  | start =>
    simp only [Writer.step] at hs
    split at hs <;> cases hs
    rename_i hw
    simp only [Writer.start]
    split
    · rw [World.queues_closeQueue, Function.update_self]
      exact h.close rfl rfl
    · exact h.still (by simp only [Session.hand, hw])
  | beat =>
    simp only [Writer.step] at hs
    split at hs
    · rename_i hw
      split at hs <;> cases hs
      exact h.still (by simp only [Session.hand, hw])
    · cases hs
  | pinged succeeds =>
    simp only [Writer.step] at hs
    split at hs <;> cases hs
    rename_i hw
    cases succeeds with
    | false =>
      rw [show (Writer.pinged w i c false).1.queues i = (w.queues i).close by simp [Writer.pinged]]
      exact h.close rfl rfl
    | true => exact h.still (by simp only [Writer.pinged, if_true, Session.hand, hw])
  | pop =>
    simp only [Writer.step] at hs
    split at hs
    · rename_i hw
      rw [Option.map_eq_some_iff] at hs
      obtain ⟨⟨x, q⟩, hq, rfl⟩ := hs
      rw [World.queues_setQueue, Function.update_self]
      exact piped_pop h hw hq
    · cases hs
  | wrote succeeds =>
    simp only [Writer.step] at hs
    split at hs <;> cases hs
    rename_i x hw
    cases succeeds with
    | false =>
      rw [show (Writer.wrote w i c x false).1.queues i = (w.queues i).close by simp [Writer.wrote]]
      exact h.close rfl rfl
    | true => exact h.still (by simp [Writer.wrote, Session.hand, hw])

theorem piped_supervise {a : SuperviseAct} (h : Piped (w.queues i) c)
    (hs : Supervise.step w i c a = some r) : Piped (r.1.queues i) r.2 := by
  cases a with
  | select t =>
    simp only [Supervise.step, Option.ite_none_right_eq_some, Option.some.injEq] at hs
    obtain ⟨-, rfl⟩ := hs
    exact h.still rfl
  | cancel t =>
    simp only [Supervise.step] at hs
    split at hs
    · split at hs
      · cases t with
        | writer =>
          simp only [Supervise.cancel] at hs
          split at hs <;> cases hs <;> rw [World.queues_closeQueue, Function.update_self] <;>
            exact h.close rfl rfl
        | reader =>
          simp only [Supervise.cancel] at hs
          split at hs <;> cases hs <;> exact h.still rfl
        | fanout =>
          simp only [Supervise.cancel] at hs
          split at hs <;> cases hs
          exact h.still rfl
      · cases hs
    · cases hs
  | join =>
    simp only [Supervise.step] at hs
    split at hs
    · split at hs <;> cases hs
      exact h.still rfl
    · cases hs
  | unregisterGet =>
    simp only [Supervise.step, Option.ite_none_right_eq_some, Option.some.injEq] at hs
    obtain ⟨-, rfl⟩ := hs
    exact h.still rfl
  | unregisterRemove =>
    simp only [Supervise.step] at hs
    split at hs <;> cases hs
    rename_i own _
    have hq : (Supervise.unregisterRemove w c own).1.queues = w.queues := by cases own <;> rfl
    rw [hq]
    exact h.still rfl
  | close =>
    simp only [Supervise.step] at hs
    split at hs <;> cases hs
    exact h.still rfl

theorem piped_setup {a : SetupAct} (hc : c.Shaped) (h : Piped (w.queues i) c)
    (hs : Setup.step w i c a = some r) : Piped (r.1.queues i) r.2 := by
  have hw := hc.writer
  cases a <;> simp only [Setup.step, Option.ite_none_right_eq_some, Option.some.injEq] at hs <;>
    obtain ⟨hst, rfl⟩ := hs <;> rw [hst] at hw
  case accept | subscribe | number | register | spawnFanout | spawnReader => exact h.still rfl
  case openQueue =>
    simp only [Setup.openQueue]
    split
    · exact h.still rfl
    · rw [World.queues_setQueue, Function.update_self]
      have hoff := hw (by decide)
      exact .before (hc.written hoff) (by simp only [Session.hand, hoff]) (fun _ => rfl) (fun _ => rfl)
  case locate =>
    unfold Setup.locate
    split
    · rename_i hl
      rw [World.queues_topicSender hl]
      exact h.still rfl
    · rw [World.queues_closeQueue, Function.update_self]
      exact h.close rfl (by simp only [Session.hand, hw (by decide)])
  case ready =>
    unfold Setup.ready
    split
    · rename_i encoded _
      have hgrew := (World.grew_trySend w i ⟨.binary encoded, .ready⟩ i).congr
        (World.queues_sendEncoded w i encoded .ready)
      exact (h.grew hgrew).still rfl
    · rw [World.queues_closeQueue, Function.update_self]
      exact h.close rfl (by simp only [Session.hand, hw (by decide)])
  case spawnWriter => exact h.still (by simp only [Session.hand, hw (by decide)])

/-- Nothing gets into a queue that is not there. -/
theorem absent_grew {w' : World E} {P : Item E → Prop} (h : World.Grew w w' i P)
    (hq : w.queues i = Queue.absent) : w'.queues i = Queue.absent := by
  rcases h with h | ⟨x, -, h⟩
  · rw [h, hq]
  · obtain ⟨hopen, -⟩ := Queue.trySend_ok h
    rw [hq] at hopen
    cases hopen

/-- Every queue is a pipe to its writer, in every run. -/
theorem piped_run {ok : ServerState E → ServerAct E → Prop} (h : Runs config ok p)
    (hc : p.session i = some c) : Piped (p.shared.queues i) c := by
  refine (session_rule (J := fun _ _ => True) (K := fun w i c => Piped (w.queues i) c) trivial
    (fun _ _ _ => trivial) ?_ ?_ (fun _ _ _ _ _ _ _ _ _ => trivial) ?_ (fun _ _ _ _ => trivial)
    (fun _ _ _ _ hK => hK) h).session i c hc
  · intro p ip query hr _
    rw [absent_run hr le_rfl]
    exact .before rfl rfl (fun _ => rfl) (fun _ => rfl)
  · intro p i c a r hr hI _ hc hs
    refine ⟨trivial, ?_⟩
    have hK := hI.session i c hc
    cases a with
    | handshake b =>
      have hf := Handshake.step_framed hs
      rw [hf.queues]
      exact hK.still (by simp only [Session.hand, hf.writer, hf.written])
    | setup b => exact piped_setup (shaped_run hr hc) hK hs
    | writer b => exact piped_writer hK hs
    | fanout b =>
      have hf := Fanout.step_framed hs
      exact (hK.grew hf.own).still (by simp only [Session.hand, hf.writer, hf.written])
    | reader b =>
      have hf := Reader.step_framed hs
      exact (hK.grew (hf.queues i)).still (by simp only [Session.hand, hf.kept.writer, hf.kept.written])
    | supervise b => exact piped_supervise hK hs
    | call b => cases hs
  · intro p i l a w' l' j c hr hI _ hne hl hc hs
    exact (hI.session j c hc).grew (queue_other hne hs)

/-! ### From the writer to the socket -/

/-- The messages of the WebSocket library that the server sends. -/
inductive Message (E : Ext) where
  | binary (bytes : E.Bytes)
  | ping (payload : List UInt8)
  | pong (payload : List UInt8)
  | close (code : ℕ) (reason : String)

/-- `into_ws_message` -/
def OutboundMessage.intoWsMessage : OutboundMessage E → Message E
  | .binary bytes => .binary bytes
  | .pong payload => .pong payload
  | .close code reason => .close code reason

/-- What happens at a socket: its writer begins, a message is sent, a frame is heard, the reader gives up
    waiting for one. -/
inductive SocketEvent (E : Ext) where
  | began
  | sent (m : Message E)
  | heard
  | gaveUp

/-- A message that was sent and is no heartbeat. -/
def SocketEvent.data? : SocketEvent E → Option (Message E)
  | .sent (.ping _) => none
  | .sent m => some m
  | _ => none

def WriterAct.events (c : Session E) : WriterAct → List (SocketEvent E)
  | .start => [.began]
  | .pinged true => [.sent (.ping [])]
  | .wrote true => c.hand.map fun x => .sent x.msg.intoWsMessage
  | _ => []

def ReaderAct.events : ReaderAct → List (SocketEvent E)
  | .frame _ => [.heard]
  | .idleTimeout => [.gaveUp]
  | _ => []

/-- What a step does at the socket of its connection, and when. -/
def Task.socket (w : World E) (_ : ℕ) (l : Task E) (a : TaskAct) (_ : Task E) : List (ℕ × SocketEvent E) :=
  match l, a with
  | .ws c, .writer b => (b.events c).map fun e => (w.now, e)
  | .ws _, .reader b => b.events.map fun e => (w.now, e)
  | _, _ => []

/-- The runs of the server with what happens at the sockets. -/
def SocketRuns (config : Config) (s : ServerState E × List (ℕ × ℕ × SocketEvent E)) : Prop :=
  LogReach (server E).next (journal Task.socket) always (boot E config) s

theorem SocketRuns.runs {s : ServerState E × List (ℕ × ℕ × SocketEvent E)} (h : SocketRuns config s) :
    Runs config always s.1 := h.reach

/-- The messages sent, without the heartbeats. -/
def dataOf (es : List (ℕ × SocketEvent E)) : List (Message E) := es.filterMap fun e => e.2.data?

theorem dataOf_append (es es' : List (ℕ × SocketEvent E)) :
    dataOf (es ++ es') = dataOf es ++ dataOf es' := List.filterMap_append

theorem data_intoWsMessage (m : OutboundMessage E) :
    (SocketEvent.sent m.intoWsMessage).data? = some m.intoWsMessage := by
  cases m <;> rfl

theorem data_writer {a : WriterAct} {now : ℕ} (h : Writer.step w i c a = some r) :
    r.2.written.map (fun x => x.msg.intoWsMessage) =
      c.written.map (fun x => x.msg.intoWsMessage) ++
        dataOf ((a.events c).map fun e => (now, e)) := by
  cases a with
  | start =>
    simp only [Writer.step] at h
    split at h <;> cases h
    simp only [Writer.start]
    split <;> exact (List.append_nil _).symm
  | beat =>
    simp only [Writer.step] at h
    split at h
    · split at h <;> cases h
      exact (List.append_nil _).symm
    · cases h
  | pinged succeeds =>
    simp only [Writer.step] at h
    split at h <;> cases h
    cases succeeds <;> exact (List.append_nil _).symm
  | pop =>
    simp only [Writer.step] at h
    split at h
    · rw [Option.map_eq_some_iff] at h
      obtain ⟨t, -, rfl⟩ := h
      exact (List.append_nil _).symm
    · cases h
  | wrote succeeds =>
    simp only [Writer.step] at h
    split at h <;> cases h
    rename_i x hw
    cases succeeds with
    | false => exact (List.append_nil _).symm
    | true =>
      have hhand : c.hand = [x] := by rw [Session.hand, hw]
      simp [Writer.wrote, WriterAct.events, hhand, dataOf, data_intoWsMessage]

theorem data_reader (a : ReaderAct) (now : ℕ) :
    dataOf (a.events.map fun e => ((now, e) : ℕ × SocketEvent E)) = [] := by
  cases a <;> rfl

/-- Only the writer's steps add to what is written. -/
theorem written_elsewhere {a : TaskAct} (h : Session.step w i c a = some r)
    (ha : ∀ b, a ≠ .writer b) : r.2.written = c.written := by
  cases a with
  | handshake b => exact (Handshake.step_framed h).written
  | setup b => exact (Setup.step_framed h).written
  | writer b => exact absurd rfl (ha b)
  | fanout b => exact (Fanout.step_framed h).written
  | reader b => exact (Reader.step_framed h).kept.written
  | supervise b => exact (Supervise.step_framed h).written
  | call b => cases h

theorem data_session {a : TaskAct} (h : Session.step w i c a = some r) :
    r.2.written.map (fun x => x.msg.intoWsMessage) =
      c.written.map (fun x => x.msg.intoWsMessage) ++ dataOf (Task.socket w i (.ws c) a (.ws r.2)) := by
  by_cases hwriter : ∃ b, a = .writer b
  · obtain ⟨b, rfl⟩ := hwriter
    exact data_writer h
  · rw [written_elsewhere h fun b e => hwriter ⟨b, e⟩]
    have hnone : dataOf (Task.socket w i (.ws c) a (.ws r.2)) = [] := by
      cases a with
      | writer b => exact absurd ⟨b, rfl⟩ hwriter
      | reader b => exact data_reader b w.now
      | _ => rfl
    rw [hnone, List.append_nil]

/-- What was sent on a socket beside the heartbeats is what its writer wrote, in order. -/
theorem data_run {s : ServerState E × List (ℕ × ℕ × SocketEvent E)} (h : SocketRuns config s)
    (hc : s.1.session i = some c) :
    dataOf (entriesOf s.2 i) = c.written.map fun x => x.msg.intoWsMessage := by
  refine (Prog.journal_rule (K := fun _ _ l es => ∀ c, l = Task.ws c →
    dataOf es = c.written.map fun x => x.msg.intoWsMessage) rfl ?_ ?_ ?_ ?_ h).each i _
      (session_eq_some.mp hc) c rfl
  · intro p request _ c hc
    cases request with
    | ws ip query =>
      cases hc
      rfl
    | api authorization request => cases hc
  · intro p i l a w' l' es _ _ _ hs hK c' hc'
    subst hc'
    cases l with
    | http d =>
      obtain ⟨d', b, hd, -⟩ := step_http hs
      cases hd
    | ws c =>
      obtain ⟨c'', hc, hstep⟩ := step_ws hs
      cases hc
      rw [dataOf_append, hK c rfl]
      exact (data_session hstep).symm
  · intro p i l a w' l' j m es _ _ _ _ _ _ hK
    exact hK
  · intro w d w' j m es _ hK
    exact hK

end WsServer
