import WsServer.Frames

/-! What `client_not_found` tells a sender. `send_to_client` has one `false` for a client that is not
    registered, for a queue that is closed and for a queue that is full, and both callers answer it with
    the same error. A call is answered with the status; a connection is answered by an event that goes
    through its own queue, and is not when there is no room for it. -/

namespace WsServer

open Lib

variable {E : Ext} {w : World E} {i : ℕ} {c : Session E} {r : World E × Session E} {config : Config}

/-- No connection with an open queue is registered for the client. -/
def World.Offline (w : World E) (tenantId clientId : String) : Prop :=
  ∀ handle, w.app.clients.lookup (tenantId, clientId) = some handle →
    (w.queues handle.sender).isOpen = false

/-- The registered connection is there, but its queue has no room. -/
def World.Clogged (w : World E) (tenantId clientId : String) : Prop :=
  ∃ handle, w.app.clients.lookup (tenantId, clientId) = some handle ∧
    (w.queues handle.sender).isOpen = true ∧
      (w.queues handle.sender).cap ≤ (w.queues handle.sender).buf.length

/-- The tenant and the target of the direct message that the task is about to send. -/
def Task.addressee : Task E → Option (String × String)
  | .ws c =>
    match c.reader with
    | .directing target _ => some (c.identity.tenantId, target)
    | _ => none
  | .http d =>
    match d.pc with
    | .directing target _ => some (d.identity.tenantId, target)
    | _ => none

/-- The step that sends it. -/
def Task.sendsDirect : Task E → TaskAct
  | .ws _ => .reader .direct
  | .http _ => .call .direct

/-- The answer is `client_not_found`: over HTTP it is a 404, over WebSocket the error event with these
    bytes, which the next step of the reader puts into the queue of its connection. -/
def Task.SaysNotFound (notFound : E.Bytes) (q : ServerState E) (i : ℕ) : Task E → Prop
  | .ws _ => ∃ q', (server E).next q (.run i (.reader .reply)) = some q' ∧
      (q'.shared.queues i).placed = (q.shared.queues i).placed ++ [⟨.binary notFound, .reply⟩]
  | .http d => d.pc = .done (.direct 404 false (some "client_not_found"))

/-- An answer gets to the sender: to a call always, to a connection while its queue is open and has
    room. -/
def Task.CanBeTold (w : World E) (i : ℕ) : Task E → Prop
  | .ws _ => (w.queues i).isOpen = true ∧ (w.queues i).buf.length < (w.queues i).cap
  | .http _ => True

theorem trySend_fst (w : World E) (i : ℕ) (x : Item E) : (w.trySend i x).1 = true ↔
    (w.queues i).isOpen = true ∧ (w.queues i).buf.length < (w.queues i).cap := by
  rw [← Queue.trySend_isOk _ x, World.trySend]
  split
  · rename_i q hq
    exact iff_of_true rfl ⟨q, hq⟩
  · rename_i hq
    refine iff_of_false Bool.false_ne_true ?_
    rintro ⟨q, h⟩
    rw [h] at hq
    cases hq

/-- A direct message gets through when its target is there and not clogged. -/
theorem sendToClient_fst (w : World E) (clientId tenantId : String) (encoded : E.Bytes)
    (sender : AuthIdentity) : (w.sendToClient clientId tenantId encoded sender).1 = true ↔
      ¬ w.Offline tenantId clientId ∧ ¬ w.Clogged tenantId clientId := by
  unfold World.sendToClient World.Offline World.Clogged
  cases hl : w.app.clients.lookup (tenantId, clientId) with
  | none => simp
  | some handle =>
    simp only [trySend_fst, Option.some.injEq, forall_eq', exists_eq_left']
    rw [Bool.not_eq_false, not_and, not_le]
    exact and_congr_right fun hopen => (imp_iff_right hopen).symm

/-! ### From the lookup to the answer -/

/-- The answer that the reader is about to put into its queue. -/
def ReaderPc.answer : ReaderPc E → Option E.Bytes
  | .replying encoded => some encoded
  | _ => none

/-- The lookup has failed: the call has its answer, and the reader of the connection has it in hand. -/
def Task.Failed (notFound : E.Bytes) : Task E → Prop
  | .ws c => c.reader.answer = some notFound
  | .http d => d.pc = .done (.direct 404 false (some "client_not_found"))

/-- A reader is cancelled where it waits for a frame, never with an answer in hand. -/
theorem answer_cancel {t : ConnectionTask} (h : Supervise.cancel w i c t = some r) :
    r.2.reader.answer = c.reader.answer := by
  cases t with
  | reader =>
    simp only [Supervise.cancel] at h
    split at h <;> cases h
    all_goals
      rename_i hr
      rw [hr]
      rfl
  | writer | fanout =>
    simp only [Supervise.cancel] at h
    split at h <;> cases h <;> rfl

theorem answer_supervise {a : SuperviseAct} (h : Supervise.step w i c a = some r) :
    r.2.reader.answer = c.reader.answer := by
  cases a with
  | cancel t =>
    simp only [Supervise.step] at h
    split at h
    · split at h
      · exact answer_cancel h
      · cases h
    · cases h
  | select t | unregisterGet =>
    simp only [Supervise.step, Option.ite_none_right_eq_some, Option.some.injEq] at h
    obtain ⟨-, rfl⟩ := h
    rfl
  | join =>
    simp only [Supervise.step] at h
    split at h
    · split at h <;> cases h
      rfl
    · cases h
  | unregisterRemove | close =>
    simp only [Supervise.step] at h
    split at h <;> cases h
    rfl

/-- An answer in hand stays there until the reader goes on. -/
theorem answer_kept {a : TaskAct} (hc : c.Shaped) (ha : ∀ b, a ≠ .reader b)
    (h : Session.step w i c a = some r) : r.2.reader.answer = c.reader.answer := by
  cases a with
  | handshake b => rw [(Handshake.step_framed h).reader]
  | setup b =>
    rcases (setup_tasks h).2.2 with hsame | hspawned
    · rw [hsame]
    · have h : Setup.step w i c b = some r := h
      have hoff : c.reader = .off := by
        cases b <;> simp only [Setup.step, Option.ite_none_right_eq_some] at h <;>
          exact hc.reader (by rw [h.1]; decide)
      rw [hspawned, hoff]
      rfl
  | writer b => rw [(Writer.step_framed h).reader]
  | fanout b => rw [(Fanout.step_framed h).reader]
  | reader b => exact absurd rfl (ha b)
  | supervise b => exact answer_supervise h
  | call b => cases h

/-- What a step of the server means to task `i`. -/
theorem thread_step {p p' : ServerState E} {a : ServerAct E} {l : Task E} (hl : p.threads[i]? = some l)
    (h : (server E).next p a = some p') : p'.threads[i]? = some l ∨ ∃ b l', a = .run i b ∧
      Task.step p.shared i l b = some (p'.shared, l') ∧ p'.threads[i]? = some l' := by
  have hlt := (List.getElem?_eq_some_iff.mp hl).1
  cases a with
  | spawn request =>
    cases h
    exact .inl (by rw [List.getElem?_append_left hlt]; exact hl)
  | env e =>
    obtain ⟨w', -, rfl⟩ := Prog.next_env h
    exact .inl hl
  | run j b =>
    obtain ⟨m, w', m', hm, hstep, rfl⟩ := Prog.next_run h
    by_cases hij : j = i
    · subst hij
      obtain rfl : l = m := Option.some.inj (hl.symm.trans hm)
      exact .inr ⟨b, m', rfl, hstep, List.getElem?_set_self hlt⟩
    · exact .inl (by rw [List.getElem?_set_ne hij]; exact hl)

/-- No step of the reader of connection `i`. -/
def readerWaitsAt (i : ℕ) (_ : ServerState E) (a : ServerAct E) : Prop := ∀ b, a ≠ .run i (.reader b)

/-- A call that has its answer. -/
def Task.Answered : Task E → Prop
  | .ws _ => True
  | .http d => ∃ response, d.pc = .done response

/-- Whatever the others do meanwhile, the outcome of the lookup stands. -/
theorem failed_kept {p q : ServerState E} {l m : Task E} {notFound : E.Bytes} (h : Runs config always p)
    (hl : p.threads[i]? = some l) (hanswered : l.Answered)
    (hwait : Reach (server E).next (readerWaitsAt i) p q) (hm : q.threads[i]? = some m) :
    m.Failed notFound ↔ l.Failed notFound := by
  obtain ⟨m', hm', hsame, -⟩ : ∃ m', q.threads[i]? = some m' ∧
      (m'.Failed notFound ↔ l.Failed notFound) ∧ m'.Answered := by
    refine hwait.invariant (I := fun s : ServerState E => ∃ m', s.threads[i]? = some m' ∧
      (m'.Failed notFound ↔ l.Failed notFound) ∧ m'.Answered) ⟨l, hl, Iff.rfl, hanswered⟩ ?_
    rintro s a s' hr ⟨n, hn, hsame, hdone⟩ hok hs
    rcases thread_step hn hs with hn' | ⟨b, n', rfl, hstep, hn'⟩
    · exact ⟨n, hn', hsame, hdone⟩
    · cases n with
      | ws c =>
        obtain ⟨c', rfl, hown⟩ := step_ws hstep
        have hshaped := shaped_run (h.trans hr.toAlways) (session_eq_some.mpr hn)
        have hkept := answer_kept hshaped (fun b' hb => hok b' (by rw [hb])) hown
        refine ⟨.ws c', hn', ?_, trivial⟩
        rw [← hsame, Task.Failed, Task.Failed, hkept]
      | http d =>
        obtain ⟨d', b', -, rfl, hown⟩ := step_http hstep
        obtain ⟨response, hpc⟩ := hdone
        cases b' <;> simp [Api.step, hpc] at hown
  obtain rfl : m = m' := Option.some.inj (hm.symm.trans hm')
  exact hsame

/-- The reply is in the queue of the connection if there was room for it. -/
theorem reply_placed (w : World E) (i : ℕ) (c : Session E) (encoded notFound : E.Bytes) :
    ((Reader.reply w i c encoded).1.queues i).placed =
        (w.queues i).placed ++ [⟨.binary notFound, .reply⟩] ↔
      encoded = notFound ∧ (w.trySend i ⟨.binary encoded, .reply⟩).1 = true := by
  have hqueues : (Reader.reply w i c encoded).1.queues = _ := World.queues_sendEncoded w i encoded .reply
  rw [hqueues]
  rcases World.trySend_cases w i ⟨.binary encoded, .reply⟩ with ⟨b, hb, he⟩ | ⟨-, he⟩
  · obtain ⟨-, -, rfl⟩ := Queue.trySend_ok hb
    simp [he]
  · simp [he]

theorem next_reply {q : ServerState E} {encoded : E.Bytes} (hm : q.threads[i]? = some (.ws c))
    (hr : c.reader = .replying encoded) : (server E).next q (.run i (.reader .reply)) =
      some ⟨(Reader.reply q.shared i c encoded).1,
        q.threads.set i (.ws (Reader.reply q.shared i c encoded).2)⟩ := by
  have hstep : Task.step q.shared i (.ws c) (.reader .reply) =
      some ((Reader.reply q.shared i c encoded).1, .ws (Reader.reply q.shared i c encoded).2) := by
    simp only [Task.step, Session.step, Reader.step, hr, Option.map_some]
  simp only [Prog.next, hm, Option.bind_some]
  exact congrArg (Option.map _) hstep

/-- An answer in hand reaches the sender when there is room for it. -/
theorem says_iff {q : ServerState E} {m : Task E} {notFound : E.Bytes} (hm : q.threads[i]? = some m) :
    m.SaysNotFound notFound q i ↔ m.Failed notFound ∧ m.CanBeTold q.shared i := by
  cases m with
  | http d => exact (and_true _).symm.to_iff
  | ws c =>
    rw [Task.SaysNotFound, Task.Failed, Task.CanBeTold, ← trySend_fst _ _ ⟨.binary notFound, .reply⟩]
    constructor
    · rintro ⟨q', hs, hplaced⟩
      obtain ⟨l, w', l', hl, (hstep : Task.step q.shared i l _ = some (w', l')), rfl⟩ := Prog.next_run hs
      obtain rfl : l = .ws c := Option.some.inj (hl.symm.trans hm)
      obtain ⟨c', rfl, hown⟩ := step_ws hstep
      simp only [Session.step, Reader.step] at hown
      split at hown <;> cases hown
      rename_i encoded hr
      obtain ⟨rfl, hsent⟩ := (reply_placed q.shared i c encoded notFound).mp hplaced
      exact ⟨by rw [hr]; rfl, hsent⟩
    · rintro ⟨hanswer, hsent⟩
      cases hr : c.reader <;> rw [hr] at hanswer <;> cases hanswer
      exact ⟨_, next_reply hm hr, (reply_placed q.shared i c notFound notFound).mpr ⟨rfl, hsent⟩⟩

/-- Which answer a direct message gets. -/
theorem failed_iff {l l' : Task E} {w' : World E} {tenantId target : String} {notFound : E.Bytes}
    (hencode : encodeServerEvent (.error "client_not_found" "target client is not online") =
      some notFound)
    (hl : l.addressee = some (tenantId, target))
    (hs : Task.step w i l l.sendsDirect = some (w', l')) :
    l'.Answered ∧ (l'.Failed notFound ↔ w.Offline tenantId target ∨ w.Clogged tenantId target) := by
  have hnot : ∀ (encoded : E.Bytes) (sender : AuthIdentity),
      ¬ (w.sendToClient target tenantId encoded sender).1 = true ↔
        w.Offline tenantId target ∨ w.Clogged tenantId target := by
    intro encoded sender
    rw [sendToClient_fst]
    tauto
  cases l with
  | ws c =>
    obtain ⟨c', rfl, hstep⟩ := step_ws hs
    refine ⟨trivial, ?_⟩
    simp only [Task.addressee] at hl
    split at hl <;> cases hl
    rename_i encoded hr
    simp only [Task.sendsDirect, Session.step, Reader.step, hr, Option.some.injEq] at hstep
    rw [← hnot encoded c.identity, Task.Failed]
    simp only [Reader.direct] at hstep
    split at hstep <;> cases hstep
    · rename_i hfail
      exact iff_of_true (by rw [Session.sendError, hencode]; rfl) (by simpa using hfail)
    · rename_i hok
      exact iff_of_false (by rintro ⟨⟩) (by simpa using hok)
  | http d =>
    obtain ⟨d', b, rfl, hb, hstep⟩ := step_http hs
    cases hb
    simp only [Task.addressee] at hl
    split at hl <;> cases hl
    rename_i encoded hp
    simp only [Api.step, hp, Option.some.injEq] at hstep
    rw [← hnot encoded d.identity, Task.Failed]
    simp only [Api.deliver] at hstep
    split at hstep <;> cases hstep
    · rename_i hok
      exact ⟨⟨_, rfl⟩, iff_of_false (by rintro ⟨⟩) (not_not.mpr hok)⟩
    · rename_i hfail
      exact ⟨⟨_, rfl⟩, iff_of_true rfl hfail⟩

theorem World.Clogged.not_offline {tenantId clientId : String} (h : w.Clogged tenantId clientId) :
    ¬ w.Offline tenantId clientId := by
  obtain ⟨handle, hl, hopen, -⟩ := h
  intro hoff
  rw [hoff handle hl] at hopen
  cases hopen

/-! ### The result -/

/-- In every reachable state, for every direct message over WebSocket or HTTP, and whatever the others do
    before the sender is answered: `client_not_found` says that no connection with an open queue is
    registered for the target, if an absent target finds the sender able to be told, and one whose queue is
    full does not. -/
theorem client_not_found_iff {p p' q : ServerState E} {l m : Task E} {tenantId target : String}
    {notFound : E.Bytes}
    (hencode : encodeServerEvent (.error "client_not_found" "target client is not online") =
      some notFound)
    (h : Runs config always p) (hl : p.threads[i]? = some l)
    (haddressee : l.addressee = some (tenantId, target))
    (hs : (server E).next p (.run i l.sendsDirect) = some p')
    (hwait : Reach (server E).next (readerWaitsAt i) p' q) (hm : q.threads[i]? = some m) :
    (m.SaysNotFound notFound q i ↔ p.shared.Offline tenantId target) ↔
      (p.shared.Offline tenantId target → m.CanBeTold q.shared i) ∧
        (p.shared.Clogged tenantId target → ¬ m.CanBeTold q.shared i) := by
  have hrun : Runs config always p' := .tail h trivial hs
  obtain ⟨n, w', l', hn, (hstep : Task.step p.shared i n _ = some (w', l')), rfl⟩ := Prog.next_run hs
  obtain rfl : l = n := Option.some.inj (hl.symm.trans hn)
  obtain ⟨hanswered, hfailed⟩ := failed_iff hencode haddressee hstep
  have hl' : (p.threads.set i l')[i]? = some l' :=
    List.getElem?_set_self (List.getElem?_eq_some_iff.mp hl).1
  rw [says_iff hm, failed_kept hrun hl' hanswered hwait hm, hfailed]
  constructor
  · intro hiff
    refine ⟨fun hoff => (hiff.mpr hoff).2, fun hclogged htold => ?_⟩
    exact hclogged.not_offline (hiff.mp ⟨.inr hclogged, htold⟩)
  · rintro ⟨htold, huntold⟩
    constructor
    · rintro ⟨hoff | hclogged, hcan⟩
      · exact hoff
      · exact absurd hcan (huntold hclogged)
    · exact fun hoff => ⟨.inl hoff, htold hoff⟩

/-- A text frame for bob. -/
def bobText : String := "\x7b\"kind\":\"direct\",\"to\":\"bob\",\"payload\":\"hi\"\x7d"

/-- The parser knows that frame. -/
def Ext.toBob : Ext :=
  { Ext.plain with
    fromStr := fun text => if text = bobText then some (.direct "bob" none "hi") else none }

/-- The error event, as the encoder writes it. -/
def notOnline : Ext.toBob.Bytes :=
  ServerEvent.error "client_not_found" "target client is not online"

theorem encode_notOnline :
    encodeServerEvent (E := Ext.toBob) (.error "client_not_found" "target client is not online") =
      some notOnline := rfl

/-- A subscriber is in, and its first frame is for bob. -/
def asksForBob : List (ServerAct Ext.toBob) :=
  .spawn (.ws (.v4 1) ⟨"public", none, none, none⟩) ::
    steps 0 (handshakeSteps ++ registerSteps ++ spawnSteps ++
      [.reader (.frame (.text bobText)), .reader .tenantRate])

/-- Task `i` looks up somebody who is not there; before it is answered the others take the step `a`, and
    then there is room in the queue of connection `i`. -/
def missesIn (i : ℕ) (target : String) (a : ServerAct Ext.toBob) (p : ServerState Ext.toBob) : Bool :=
  (p.threads[i]?).any fun l =>
    decide (l.addressee = some ("default", target) ∧
        p.shared.app.clients.lookup ("default", target) = none) &&
      ((server Ext.toBob).next p (.run i l.sendsDirect)).any fun p' =>
        ((server Ext.toBob).next p' a).any fun q : ServerState Ext.toBob => (q.session i).isSome &&
          (q.shared.queues i).isOpen && decide ((q.shared.queues i).buf.length < (q.shared.queues i).cap)

theorem client_not_found_nobody : ∃ (p p' q : ServerState Ext.toBob) (l m : Task Ext.toBob),
    Runs Config.plain always p ∧ p.threads[0]? = some l ∧
      (server Ext.toBob).next p (.run 0 l.sendsDirect) = some p' ∧
        (server Ext.toBob).next p' (.run 0 (.writer .pop)) = some q ∧ q.threads[0]? = some m ∧
          m.SaysNotFound notOnline q 0 := by
  obtain ⟨p, hp, hc⟩ := play_check Config.plain (fun _ _ => true) asksForBob
    (missesIn 0 "bob" (.run 0 (.writer .pop))) (by decide +kernel)
  obtain ⟨l, hl, hc⟩ := (Option.any_eq_true _ _).mp hc
  obtain ⟨hfacts, hc⟩ := Bool.and_eq_true_iff.mp hc
  obtain ⟨haddressee, hnobody⟩ := of_decide_eq_true hfacts
  obtain ⟨p', hs, hc⟩ := (Option.any_eq_true _ _).mp hc
  obtain ⟨q, hpop, hc⟩ := (Option.any_eq_true _ _).mp hc
  obtain ⟨hc, hroom⟩ := Bool.and_eq_true_iff.mp hc
  obtain ⟨hsome, hopen⟩ := Bool.and_eq_true_iff.mp hc
  obtain ⟨c, hsession⟩ := Option.isSome_iff_exists.mp hsome
  have hwait : Reach (server Ext.toBob).next (readerWaitsAt 0) p' q :=
    .tail .refl (fun b hb => by cases hb) hpop
  have hoff : p.shared.Offline "default" "bob" := by
    intro handle hhandle
    cases hnobody.symm.trans hhandle
  have hm := session_eq_some.mp hsession
  have hresult := client_not_found_iff encode_notOnline hp.toAlways hl haddressee hs hwait hm
  refine ⟨p, p', q, l, .ws c, hp.toAlways, hl, hs, hpop, hm, (hresult.mpr ⟨?_, ?_⟩).mpr hoff⟩
  · exact fun _ => ⟨hopen, of_decide_eq_true hroom⟩
  · exact fun hclogged => absurd hoff hclogged.not_offline

/-- Room for one message in each queue. -/
def Config.oneSlot : Config := { Config.plain with clientQueueCapacity := 1 }

/-- A call that writes to the subscriber, up to the lookup. -/
def callsAnonymous : List (ServerAct Ext.toBob) :=
  .spawn (.ws (.v4 1) ⟨"public", none, none, none⟩) ::
    steps 0 (handshakeSteps ++ registerSteps ++ spawnSteps) ++
    .spawn (.api none (.direct ⟨"anonymous", none, "hi"⟩)) :: steps 1 [.call .resolve]

/-- Call `i` looks up somebody who is there, with a full queue. -/
def findsFull (i : ℕ) (target : String) (p : ServerState Ext.toBob) : Bool :=
  ((p.threads[i]?).any fun l => decide (l.addressee = some ("default", target)) &&
    ((server Ext.toBob).next p (.run i l.sendsDirect)).any fun q : ServerState Ext.toBob =>
      (q.call i).isSome) &&
      (p.shared.app.clients.lookup ("default", target)).any fun handle =>
        (p.shared.queues handle.sender).isOpen &&
          decide ((p.shared.queues handle.sender).cap ≤ (p.shared.queues handle.sender).buf.length)

/-- The subscriber is online and has not read its `Ready` yet: a message to it is answered with 404. -/
theorem client_not_found_online : ¬ ∀ (p p' q : ServerState Ext.toBob) (i : ℕ) (l m : Task Ext.toBob)
    (tenantId target : String), Runs Config.oneSlot always p → p.threads[i]? = some l →
      l.addressee = some (tenantId, target) →
        (server Ext.toBob).next p (.run i l.sendsDirect) = some p' →
          Reach (server Ext.toBob).next (readerWaitsAt i) p' q → q.threads[i]? = some m →
            (m.SaysNotFound notOnline q i ↔ p.shared.Offline tenantId target) := by
  intro hall
  obtain ⟨p, hp, hc⟩ := play_check Config.oneSlot (fun _ _ => true) callsAnonymous
    (findsFull 1 "anonymous") (by decide +kernel)
  obtain ⟨hc, hfull⟩ := Bool.and_eq_true_iff.mp hc
  obtain ⟨l, hl, hc⟩ := (Option.any_eq_true _ _).mp hc
  obtain ⟨haddressee, hc⟩ := Bool.and_eq_true_iff.mp hc
  have haddressee := of_decide_eq_true haddressee
  obtain ⟨q, hs, hsome⟩ := (Option.any_eq_true _ _).mp hc
  obtain ⟨d, hd⟩ := Option.isSome_iff_exists.mp hsome
  have hm := call_eq_some.mp hd
  obtain ⟨handle, hlookup, hfull⟩ := (Option.any_eq_true _ _).mp hfull
  rw [Bool.and_eq_true, decide_eq_true_eq] at hfull
  have hclogged : p.shared.Clogged "default" "anonymous" := ⟨handle, hlookup, hfull.1, hfull.2⟩
  obtain ⟨n, w', l', hn, (hstep : Task.step p.shared 1 n _ = some (w', l')), rfl⟩ := Prog.next_run hs
  obtain rfl : l = n := Option.some.inj (hl.symm.trans hn)
  have hl' : (p.threads.set 1 l')[1]? = some l' :=
    List.getElem?_set_self (List.getElem?_eq_some_iff.mp hl).1
  obtain rfl : l' = .http d := Option.some.inj (hl'.symm.trans hm)
  have hfailed := (failed_iff encode_notOnline haddressee hstep).2.mpr (.inr hclogged)
  refine hclogged.not_offline ((hall p _ _ 1 l _ _ _ hp.toAlways hl haddressee hs .refl hm).mp ?_)
  exact (says_iff hm).mpr ⟨hfailed, trivial⟩

end WsServer
