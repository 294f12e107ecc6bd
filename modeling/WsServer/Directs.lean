import WsServer.Ordering
import WsServer.Socket

/-! Direct messages end to end. `send_to_client` puts a message into the queue of the connection that is
    registered for the target, or fails. So the direct messages in a queue are those that were handed to
    it, in that order and each once, whoever sent them; a frame hands out one at most and later frames
    later ones, and a call is told that it delivered exactly if it did. -/

namespace WsServer

open Lib

variable {E : Ext} {w : World E} {i j : ℕ} {c : Session E} {r : World E × Session E} {config : Config}
  {p : ServerState E}

/-! ### What is handed to a queue -/

/-- The bytes of an item that was sent directly. -/
def Item.direct? (x : Item E) : Option E.Bytes :=
  match x.source, x.msg with
  | .direct _, .binary encoded => some encoded
  | _, _ => none

def directsIn (l : List (Item E)) : List E.Bytes := l.filterMap Item.direct?

theorem directsIn_append (l l' : List (Item E)) : directsIn (l ++ l') = directsIn l ++ directsIn l' :=
  List.filterMap_append

/-- A direct message that found a place: the frame it is from unless a call sent it, tenant and client it is
    for, and the queue. -/
structure Handed (E : Ext) where
  frame : Option ℕ
  client : String × String
  queue : ℕ
  encoded : E.Bytes

/-- What `send_to_client` hands out. -/
def World.handed (w : World E) (frame : Option ℕ) (target : String) (encoded : E.Bytes)
    (sender : AuthIdentity) : List (Handed E) :=
  match w.directTo target sender.tenantId with
  | some queue =>
    if (w.sendToClient target sender.tenantId encoded sender).1 then
      [⟨frame, (sender.tenantId, target), queue, encoded⟩]
    else []
  | none => []

def Task.hands (w : World E) (_ : ℕ) (l : Task E) (a : TaskAct) (_ : Task E) : List (Handed E) :=
  match l, a with
  | .ws c, .reader .direct =>
    match c.reader with
    | .directing target encoded => w.handed (some c.frames) target encoded c.identity
    | _ => []
  | .http d, .call .direct =>
    match d.pc with
    | .directing target encoded => w.handed none target encoded d.identity
    | _ => []
  | _, _ => []

/-- What was handed to queue `j`. -/
def handedTo (j : ℕ) (log : List (Handed E)) : List E.Bytes :=
  (log.filter fun e => e.queue = j).map (·.encoded)

theorem handedTo_append (j : ℕ) (log log' : List (Handed E)) :
    handedTo j (log ++ log') = handedTo j log ++ handedTo j log' := by
  rw [handedTo, List.filter_append, List.map_append]
  rfl

theorem directs_sendToClient (w : World E) (frame : Option ℕ) (target : String) (encoded : E.Bytes)
    (sender : AuthIdentity) (j : ℕ) :
    directsIn ((w.sendToClient target sender.tenantId encoded sender).2.queues j).placed =
      directsIn (w.queues j).placed ++ handedTo j (w.handed frame target encoded sender) := by
  unfold World.handed World.directTo
  unfold World.sendToClient
  cases w.app.clients.lookup (sender.tenantId, target) with
  | none => simp [handedTo]
  | some handle =>
    rcases World.trySend_cases w handle.sender ⟨.binary encoded, .direct sender⟩ with ⟨q, hq, ht⟩ | ⟨-, ht⟩
    · obtain ⟨-, -, rfl⟩ := Queue.trySend_ok hq
      simp only [Option.map_some, ht]
      by_cases hj : handle.sender = j
      · subst hj
        simp [handedTo, directsIn, Item.direct?]
      · simp [handedTo, hj, Ne.symm hj]
    · simp [ht, handedTo]

/-- An item that was not sent directly does not count. -/
theorem directs_grew {w' : World E} {P : Item E → Prop} (h : World.Grew w w' j P)
    (hp : ∀ x, P x → x.direct? = none) : directsIn (w'.queues j).placed = directsIn (w.queues j).placed := by
  rcases h with h | ⟨x, hx, h⟩
  · rw [h]
  · obtain ⟨-, -, hq⟩ := Queue.trySend_ok h
    rw [hq, directsIn_append, directsIn, directsIn, List.filterMap_cons, hp x hx]
    simp

theorem direct?_of_isOwn {x : Item E} (h : x.source.isOwn = true) : x.direct? = none := by
  unfold Item.direct?
  split
  · rename_i hx _
    rw [hx] at h
    cases h
  · rfl

theorem direct?_of_source {x : Item E} (h : ∀ s, x.source ≠ .direct s) : x.direct? = none := by
  unfold Item.direct?
  split
  · rename_i hx _
    exact absurd hx (h _)
  · rfl

theorem hands_reader {a : ReaderAct} (h : Reader.step w i c a = some r) (j : ℕ) :
    directsIn (r.1.queues j).placed =
      directsIn (w.queues j).placed ++ handedTo j ((Task.ws c).hands w i (.reader a) (.ws r.2)) := by
  by_cases ha : a = .direct
  · subst ha
    simp only [Reader.step] at h
    split at h <;> cases h
    rename_i target encoded hr
    have hq : (Reader.direct w c target encoded).1.queues =
        (w.sendToClient target c.identity.tenantId encoded c.identity).2.queues := by
      simp only [Reader.direct]
      split <;> rfl
    rw [hq, directs_sendToClient w (some c.frames)]
    simp only [Task.hands, hr]
  · have hnone : (Task.ws c).hands w i (.reader a) (.ws r.2) = [] := by
      cases a <;> first | rfl | exact absurd rfl ha
    have hgrew := directs_grew ((Reader.step_framed h).queues j) (by
      rintro x (⟨-, hx⟩ | ⟨ht, -⟩)
      · exact direct?_of_isOwn hx
      · cases a <;> first | cases ht | exact absurd rfl ha)
    rw [hnone, hgrew]
    exact (List.append_nil _).symm

theorem hands_call {d : Call E} {a : CallAct} {s : World E × Call E} (h : Api.step w i d a = some s) (j : ℕ) :
    directsIn (s.1.queues j).placed =
      directsIn (w.queues j).placed ++ handedTo j ((Task.http d).hands w i (.call a) (.http s.2)) := by
  by_cases ha : a = .direct
  · subst ha
    simp only [Api.step] at h
    split at h <;> cases h
    rename_i target encoded hp
    have hq : (Api.deliver w d target encoded).1.queues =
        (w.sendToClient target d.identity.tenantId encoded d.identity).2.queues := by
      simp only [Api.deliver]
      split <;> rfl
    rw [hq, directs_sendToClient w none]
    simp only [Task.hands, hp]
  · have hnone : (Task.http d).hands w i (.call a) (.http s.2) = [] := by
      cases a <;> first | rfl | exact absurd rfl ha
    have hgrew := directs_grew ((Api.step_framed h).queues j) (by
      rintro x ⟨ht, -⟩
      cases a <;> first | cases ht | exact absurd rfl ha)
    rw [hnone, hgrew]
    exact (List.append_nil _).symm

/-! ### Queues start empty -/

/-- The queue of a connection is not made yet. -/
def Stage.isEarly (s : Stage) : Bool := s.isHandshake || s = .accepted

theorem early_run {ok : ServerState E → ServerAct E → Prop} (h : Runs config ok p) (hc : p.session i = some c)
    (hearly : c.stage.isEarly = true) : p.shared.queues i = Queue.absent := by
  refine (session_rule (J := fun _ _ => True)
    (K := fun w i c => c.stage.isEarly = true → w.queues i = Queue.absent) trivial
    (fun _ _ _ => trivial) ?_ ?_ (fun _ _ _ _ _ _ _ _ _ => trivial) ?_ (fun _ _ _ _ => trivial)
    (fun _ _ _ _ hK => hK) h).session i c hc hearly
  · intro p ip query hr _ _
    exact absent_run hr le_rfl
  · intro p i c a r hr hI _ hc hs
    refine ⟨trivial, ?_⟩
    intro hearly
    have hK := hI.session i c hc
    cases a with
    | handshake b =>
      rw [(Handshake.step_framed hs).queues]
      rcases Handshake.stage_step hs with ⟨hbefore, -⟩ | ⟨hsame, -⟩
      · exact hK (by rw [Stage.isEarly, hbefore]; rfl)
      · exact hK (by rwa [hsame] at hearly)
    | setup b =>
      have hs : Setup.step p.shared i c b = some r := hs
      cases b <;> simp only [Setup.step, Option.ite_none_right_eq_some, Option.some.injEq] at hs <;>
        obtain ⟨hst, rfl⟩ := hs
      case accept => exact hK (by rw [hst]; rfl)
      case openQueue =>
        revert hearly
        simp only [Setup.openQueue]
        split
        · rintro ⟨⟩
        · rintro ⟨⟩
      case locate =>
        revert hearly
        unfold Setup.locate
        split
        · rintro ⟨⟩
        · rintro ⟨⟩
      case ready =>
        revert hearly
        unfold Setup.ready
        split
        · rintro ⟨⟩
        · rintro ⟨⟩
      all_goals cases hearly
    | writer b =>
      rw [(Writer.step_framed hs).stage] at hearly
      have hoff := (shaped_run hr hc).writer (by
        revert hearly
        cases c.stage <;> simp [Stage.isEarly, Stage.isHandshake, Stage.rank])
      have hs : Writer.step p.shared i c b = some r := hs
      cases b <;> simp [Writer.step, hoff] at hs
    | fanout b =>
      rw [(Fanout.step_framed hs).stage] at hearly
      exact absent_grew (Fanout.step_framed hs).own (hK hearly)
    | reader b =>
      have hf := Reader.step_framed hs
      rw [hf.kept.stage] at hearly
      exact absent_grew (hf.queues i) (hK hearly)
    | supervise b =>
      rcases supervise_rank hs with ⟨-, h2⟩ | ⟨-, h2, -⟩
      · revert hearly h2
        cases r.2.stage <;> simp [Stage.isEarly, Stage.isHandshake, Stage.rank]
      · rw [h2] at hearly
        cases hearly
    | call b => cases hs
  · intro p i l a w' l' j c hr hI _ hne hl hc hs hearly
    exact absent_grew (queue_other hne hs) (hI.session j c hc hearly)

/-! ### The log against the queues -/

theorem hands_setup {a : SetupAct} (h : Setup.step w i c a = some r)
    (hearly : c.stage.isEarly = true → w.queues i = Queue.absent) (j : ℕ) :
    directsIn (r.1.queues j).placed = directsIn (w.queues j).placed := by
  by_cases hj : j = i
  · subst hj
    cases a <;> simp only [Setup.step, Option.ite_none_right_eq_some, Option.some.injEq] at h <;>
      obtain ⟨hst, rfl⟩ := h
    case openQueue =>
      simp only [Setup.openQueue]
      split
      · rfl
      · rw [World.queues_setQueue, Function.update_self, hearly (by rw [hst]; rfl)]
        rfl
    case locate =>
      unfold Setup.locate
      split
      · rename_i hl
        rw [World.queues_topicSender hl]
      · rw [World.queues_closeQueue, Function.update_self]
        rfl
    case ready =>
      unfold Setup.ready
      split
      · rename_i encoded _
        have hgrew := (World.grew_trySend w j ⟨.binary encoded, .ready⟩ j).congr
          (World.queues_sendEncoded w j encoded .ready)
        refine directs_grew hgrew ?_
        rintro x ⟨-, rfl⟩
        rfl
      · rw [World.queues_closeQueue, Function.update_self]
        rfl
    all_goals rfl
  · rw [(Setup.step_framed h).queues j hj]

/-- A step adds to each queue the direct messages that it hands to it. -/
theorem hands_step {l l' : Task E} {a : TaskAct} {w' : World E} (h : Task.step w i l a = some (w', l'))
    (hearly : ∀ c, l = .ws c → c.stage.isEarly = true → w.queues i = Queue.absent) (j : ℕ) :
    directsIn (w'.queues j).placed = directsIn (w.queues j).placed ++ handedTo j (l.hands w i a l') := by
  cases l with
  | http d =>
    obtain ⟨d', b, rfl, rfl, hs⟩ := step_http h
    exact hands_call hs j
  | ws c =>
    obtain ⟨c', rfl, hs⟩ := step_ws h
    have hquiet : (Task.ws c).hands w i a (.ws c') = [] →
        directsIn (w'.queues j).placed = directsIn (w.queues j).placed →
        directsIn (w'.queues j).placed =
          directsIn (w.queues j).placed ++ handedTo j ((Task.ws c).hands w i a (.ws c')) := by
      intro hnone hsame
      rw [hnone, hsame]
      exact (List.append_nil _).symm
    cases a with
    | handshake b => exact hquiet rfl (by rw [(Handshake.step_framed hs).queues])
    | setup b => exact hquiet rfl (hands_setup hs (hearly c rfl) j)
    | writer b =>
      refine hquiet rfl ?_
      have hf := Writer.step_framed hs
      by_cases hj : j = i
      · subst hj
        rw [hf.placed]
      · rw [hf.queues j hj]
    | fanout b =>
      refine hquiet rfl ?_
      have hf := Fanout.step_framed hs
      by_cases hj : j = i
      · subst hj
        refine directs_grew hf.own ?_
        rintro x ⟨seq, hx⟩
        exact direct?_of_source (by rw [hx]; rintro s ⟨⟩)
      · rw [hf.queues j hj]
    | reader b => exact hands_reader hs j
    | supervise b =>
      refine hquiet rfl ?_
      have hf := Supervise.step_framed hs
      by_cases hj : j = i
      · subst hj
        rw [hf.placed]
      · rw [hf.queues j hj]
    | call b => cases hs

/-- The runs of the server with the direct messages that are handed out. -/
def HandRuns (config : Config) (s : ServerState E × List (ℕ × Handed E)) : Prop :=
  LogReach (server E).next (journal Task.hands) always (boot E config) s

theorem handed_run {s : ServerState E × List (ℕ × Handed E)} (h : HandRuns config s) (j : ℕ) :
    directsIn (s.1.shared.queues j).placed = handedTo j (s.2.map Prod.snd) := by
  refine h.invariant (I := fun p log => directsIn (p.shared.queues j).placed = handedTo j (log.map Prod.snd))
    rfl ?_
  intro p log a p' hr hI _ hs
  cases a with
  | spawn request =>
    cases hs
    rw [show journal Task.hands p (.spawn request) _ = [] from rfl, List.append_nil]
    exact hI
  | env d =>
    obtain ⟨w', he, rfl⟩ := Prog.next_env hs
    cases he
    rw [show journal Task.hands p (.env d) _ = [] from rfl, List.append_nil]
    exact hI
  | run i a =>
    obtain ⟨l, w', l', hl, hstep, rfl⟩ := Prog.next_run hs
    have hearly : ∀ c, l = .ws c → c.stage.isEarly = true → p.shared.queues i = Queue.absent := by
      intro c hc
      rw [hc] at hl
      exact early_run hr.reach (session_eq_some.mpr hl)
    have hid : (Prod.snd ∘ fun e : Handed E => (i, e)) = id := rfl
    rw [journal_run hl, List.map_append, handedTo_append, List.map_map, hid, List.map_id, ← hI]
    exact hands_step hstep hearly j

/-! ### The frames and the calls they are from -/

/-- The reader may still hand out a direct message for the frame it read last. -/
def Session.mayHand (c : Session E) : Bool :=
  match c.reader with
  | .checking _ | .directing _ _ => true
  | _ => false

/-- A call was told that its message was delivered. -/
def CallPc.isDelivered : CallPc E → Bool
  | .done (.direct _ delivered _) => delivered
  | _ => false

/-- The frames that messages are from. -/
def framesOf (es : List (Handed E)) : List ℕ := es.filterMap (·.frame)

theorem framesOf_append (es es' : List (Handed E)) : framesOf (es ++ es') = framesOf es ++ framesOf es' :=
  List.filterMap_append

/-- What a connection handed out is from frames it has read, in order, and nothing is from the frame that
    it may still hand out for; a call handed out what it was told. -/
def Sourced (_ : World E) (_ : ℕ) (l : Task E) (es : List (Handed E)) : Prop :=
  match l with
  | .ws c => (framesOf es).Pairwise (· < ·) ∧
      ∀ f ∈ framesOf es, f ≤ c.frames ∧ (c.mayHand = true → f < c.frames)
  | .http d => es.length = d.pc.isDelivered.toNat

theorem handed_length (w : World E) (frame : Option ℕ) (target : String) (encoded : E.Bytes)
    (sender : AuthIdentity) : (w.handed frame target encoded sender).length =
      (w.sendToClient target sender.tenantId encoded sender).1.toNat := by
  unfold World.handed World.directTo World.sendToClient
  cases w.app.clients.lookup (sender.tenantId, target) with
  | none => rfl
  | some handle =>
    simp only [Option.map_some]
    split
    · rename_i ht
      rw [ht]
      rfl
    · rename_i ht
      rw [Bool.not_eq_true] at ht
      rw [ht]
      rfl

theorem framesOf_handed (w : World E) (frame : ℕ) (target : String) (encoded : E.Bytes)
    (sender : AuthIdentity) : framesOf (w.handed (some frame) target encoded sender) = [] ∨
      framesOf (w.handed (some frame) target encoded sender) = [frame] := by
  unfold World.handed
  split
  · split
    · exact .inr rfl
    · exact .inl rfl
  · exact .inl rfl

theorem mayHand_sendError (now : ℕ) (code message : String) :
    (c.sendError now code message).mayHand = false := by
  unfold Session.sendError
  split <;> rfl

/-- A reader that goes on with its frame may hand out for it only what it could before. -/
theorem mayHand_reader {a : ReaderAct} (hs : Reader.step w i c a = some r) (hf : r.2.frames = c.frames) :
    r.2.mayHand = true → c.mayHand = true := by
  intro hm
  cases a with
  | frame f =>
    simp only [Reader.step] at hs
    split at hs <;> cases hs
    rw [frames_frame] at hf
    exact absurd hf (Nat.succ_ne_self c.frames)
  | tenantRate =>
    simp only [Reader.step] at hs
    split at hs <;> cases hs
    rename_i hr
    rw [Session.mayHand, hr]
  | direct =>
    simp only [Reader.step] at hs
    split at hs <;> cases hs
    rename_i hr
    rw [Session.mayHand, hr]
  | locate =>
    simp only [Reader.step] at hs
    split at hs <;> cases hs
    revert hm
    simp only [Reader.locate]
    split
    · rintro ⟨⟩
    · rintro ⟨⟩
  | limitError =>
    simp only [Reader.step] at hs
    split at hs <;> cases hs
    revert hm
    simp only [Reader.limitError]
    split
    · rintro ⟨⟩
    · rintro ⟨⟩
  | start | send | reply | limitClose =>
    simp only [Reader.step] at hs
    split at hs <;> cases hs
    cases hm
  | idleTimeout =>
    simp only [Reader.step] at hs
    split at hs
    · split at hs <;> cases hs
      cases hm
    · cases hs

theorem sourced_mono {c' : Session E} {es : List (Handed E)} {w' : World E} (h : Sourced w i (.ws c) es)
    (hframes : c'.frames = c.frames) (hmay : c'.mayHand = true → c.mayHand = true) :
    Sourced w' i (.ws c') es := by
  refine ⟨h.1, ?_⟩
  intro f hf
  rw [hframes]
  exact ⟨(h.2 f hf).1, fun hm => (h.2 f hf).2 (hmay hm)⟩

theorem sourced_reader {a : ReaderAct} {es : List (Handed E)} (h : Sourced w i (.ws c) es)
    (hs : Reader.step w i c a = some r) :
    Sourced r.1 i (.ws r.2) (es ++ (Task.ws c).hands w i (.reader a) (.ws r.2)) := by
  by_cases ha : a = .direct
  · subst ha
    simp only [Reader.step] at hs
    split at hs <;> cases hs
    rename_i target encoded hr
    have hmay : c.mayHand = true := by rw [Session.mayHand, hr]
    have hhands : (Task.ws c).hands w i (.reader .direct) (.ws (Reader.direct w c target encoded).2) =
        w.handed (some c.frames) target encoded c.identity := by
      simp only [Task.hands, hr]
    have hafter : (Reader.direct w c target encoded).2.frames = c.frames ∧
        (Reader.direct w c target encoded).2.mayHand = false := by
      simp only [Reader.direct]
      split
      · exact ⟨frames_sendError _ _ _, mayHand_sendError _ _ _⟩
      · exact ⟨rfl, rfl⟩
    have hcounted : Sourced (Reader.direct w c target encoded).1 i
        (.ws (Reader.direct w c target encoded).2) es := by
      refine ⟨h.1, ?_⟩
      intro f hf
      rw [hafter.1, hafter.2]
      exact ⟨(h.2 f hf).1, by rintro ⟨⟩⟩
    rw [hhands]
    rcases framesOf_handed w c.frames target encoded c.identity with hone | hone
    · rw [Sourced, framesOf_append, hone, List.append_nil]
      exact hcounted
    · rw [Sourced, framesOf_append, hone, hafter.1, hafter.2]
      refine ⟨?_, ?_⟩
      · rw [List.pairwise_append]
        refine ⟨h.1, List.pairwise_singleton _ _, ?_⟩
        intro f hf g hg
        rw [List.mem_singleton.mp hg]
        exact (h.2 f hf).2 hmay
      · intro f hf
        refine ⟨?_, by rintro ⟨⟩⟩
        rcases List.mem_append.mp hf with hf | hf
        · exact (h.2 f hf).1
        · exact (List.mem_singleton.mp hf).le
  · have hnone : (Task.ws c).hands w i (.reader a) (.ws r.2) = [] := by
      cases a <;> first | rfl | exact absurd rfl ha
    rw [hnone, List.append_nil]
    rcases reader_frames hs with ⟨hf, -⟩ | ⟨hf, -⟩
    · refine ⟨h.1, ?_⟩
      intro f hfs
      have hle := (h.2 f hfs).1
      rw [hf]
      exact ⟨by omega, fun _ => by omega⟩
    · exact sourced_mono h hf (mayHand_reader hs hf)

theorem sourced_call {d : Call E} {a : CallAct} {s : World E × Call E} {es : List (Handed E)}
    (h : Sourced w i (.http d) es) (hs : Api.step w i d a = some s) :
    Sourced s.1 i (.http s.2) (es ++ (Task.http d).hands w i (.call a) (.http s.2)) := by
  have hold : es.length = d.pc.isDelivered.toNat := h
  rw [Sourced, List.length_append, hold]
  cases a with
  | direct =>
    simp only [Api.step] at hs
    split at hs <;> cases hs
    rename_i target encoded hp
    simp only [Task.hands, hp, handed_length, Api.deliver]
    split
    · rename_i hsent
      rw [hsent]
      rfl
    · rename_i hsent
      rw [Bool.not_eq_true] at hsent
      rw [hsent]
      rfl
  | resolve =>
    simp only [Api.step] at hs
    split at hs <;> cases hs
    rename_i hp
    simp only [Task.hands, hp, Api.resolve]
    split
    · rfl
    · split
      · simp only [Api.publish]
        split <;> rfl
      · simp only [Api.direct]
        split <;> rfl
  | locate =>
    simp only [Api.step] at hs
    split at hs <;> cases hs
    rename_i hp
    simp only [Task.hands, hp, Api.locate]
    split <;> rfl
  | send =>
    simp only [Api.step] at hs
    split at hs <;> cases hs
    rename_i hp
    simp only [Task.hands, hp]
    rfl

theorem sourced_step {l l' : Task E} {a : TaskAct} {w' : World E} {es : List (Handed E)}
    (hs : Task.step w i l a = some (w', l')) (h : Sourced w i l es) :
    Sourced w' i l' (es ++ l.hands w i a l') := by
  cases l with
  | http d =>
    obtain ⟨d', b, rfl, rfl, hstep⟩ := step_http hs
    exact sourced_call h hstep
  | ws c =>
    obtain ⟨c', rfl, hstep⟩ := step_ws hs
    by_cases hread : ∃ b, a = .reader b
    · obtain ⟨b, rfl⟩ := hread
      exact sourced_reader h hstep
    · have hread' : ∀ b, a ≠ .reader b := fun b e => hread ⟨b, e⟩
      have hnone : (Task.ws c).hands w i a (.ws c') = [] := by
        cases a with
        | reader b => exact absurd rfl (hread' b)
        | call b => cases hstep
        | _ => rfl
      rw [hnone, List.append_nil]
      refine sourced_mono h (session_frames hstep hread').1 ?_
      unfold Session.mayHand
      rcases session_reader hstep hread' with he | he | he <;> rw [he]
      · exact id
      · rintro ⟨⟩
      · rintro ⟨⟩

theorem sourced_run {s : ServerState E × List (ℕ × Handed E)} (h : HandRuns config s) {l : Task E}
    (hl : s.1.threads[i]? = some l) : Sourced s.1.shared i l (entriesOf s.2 i) := by
  refine (Prog.journal_rule (K := Sourced) rfl ?_ ?_ ?_ ?_ h).each i l hl
  · intro p request _
    cases request with
    | ws ip query =>
      refine ⟨.nil, ?_⟩
      intro f hf
      cases hf
    | api authorization request => exact rfl
  · intro p i l a w' l' es _ _ _ hs hI
    exact sourced_step hs hI
  · intro p i l a w' l' j m es _ _ _ _ _ _ hI
    exact hI
  · intro w e w' j m es _ hI
    exact hI

/-! ### Whom they are for -/

theorem key_kept {a : TaskAct} (h : Session.step w i c a = some r) (hc : c.stage.isHandshake = false) :
    r.2.stage.isHandshake = false ∧ r.2.key = c.key := by
  have hkey : r.2.identity = c.identity → r.2.key = c.key := by
    intro he
    rw [Session.key, he]
    rfl
  cases a with
  | handshake b =>
    rcases Handshake.stage_step h with ⟨hb, -⟩ | ⟨hsame, hid⟩
    · rw [hb] at hc
      cases hc
    · exact ⟨by rwa [hsame], hkey hid⟩
  | setup b =>
    refine ⟨?_, hkey (congrArg Ticket.identity (Setup.step_framed h).ticket)⟩
    have h : Setup.step w i c b = some r := h
    cases b <;> simp only [Setup.step, Option.ite_none_right_eq_some, Option.some.injEq] at h <;>
      obtain ⟨-, rfl⟩ := h
    case openQueue =>
      simp only [Setup.openQueue]
      split <;> rfl
    case locate =>
      unfold Setup.locate
      split <;> rfl
    case ready =>
      unfold Setup.ready
      split <;> rfl
    all_goals rfl
  | writer b =>
    have hf := Writer.step_framed h
    exact ⟨by rwa [hf.stage], hkey (congrArg Ticket.identity hf.ticket)⟩
  | fanout b =>
    have hf := Fanout.step_framed h
    exact ⟨by rwa [hf.stage], hkey (congrArg Ticket.identity hf.ticket)⟩
  | reader b =>
    have hk := (Reader.step_framed h).kept
    exact ⟨by rwa [hk.stage], hkey (congrArg Ticket.identity hk.ticket)⟩
  | supervise b =>
    refine ⟨?_, hkey (congrArg Ticket.identity (Supervise.step_framed h).ticket)⟩
    rcases supervise_rank h with ⟨-, h2⟩ | ⟨-, h2, -⟩
    · by_contra hb
      rw [Bool.not_eq_false] at hb
      rw [rank_of_isHandshake hb] at h2
      omega
    · rw [h2]
      rfl
  | call b => cases h

/-- The connection that owns queue `j`, and the client it is. -/
def ServerState.seats (p : ServerState E) (j : ℕ) (client : String × String) : Prop :=
  ∃ c, p.session j = some c ∧ c.stage.isHandshake = false ∧ c.key = client

theorem seats_step {p' : ServerState E} {a : ServerAct E} (hs : (server E).next p a = some p')
    {client : String × String} (h : p.seats j client) : p'.seats j client := by
  obtain ⟨c, hc, hstage, hkey⟩ := h
  cases progress hs hc with
  | own b c' now step =>
    obtain ⟨hstage', hkey'⟩ := key_kept step hstage
    exact ⟨c', now, hstage', hkey'.trans hkey⟩
  | other j l l' b ne now step => exact ⟨c, now, hstage, hkey⟩
  | quiet t now shared => exact ⟨c, now, hstage, hkey⟩

theorem addressed_hands {ok : ServerState E → ServerAct E → Prop} (h : Runs config ok p) {l : Task E}
    {a : TaskAct} {l' : Task E} : ∀ e ∈ l.hands p.shared i a l', p.seats e.queue e.client := by
  have hhanded : ∀ frame target encoded sender, ∀ e ∈ p.shared.handed frame target encoded sender,
      p.seats e.queue e.client := by
    intro frame target encoded sender e he
    unfold World.handed World.directTo at he
    cases hlook : p.shared.app.clients.lookup (sender.tenantId, target) with
    | none =>
      rw [hlook] at he
      cases he
    | some handle =>
      obtain ⟨c, hc, hholds, hkey, -⟩ := entry_session h hlook
      simp only [hlook, Option.map_some] at he
      split at he
      · obtain rfl := List.mem_singleton.mp he
        refine ⟨c, hc, ?_, hkey.symm⟩
        revert hholds
        unfold Session.phase
        cases c.stage <;> simp [Stage.phase, Phase.holds, Stage.isHandshake]
      · cases he
  unfold Task.hands
  intro e he
  split at he
  · split at he
    · exact hhanded _ _ _ _ e he
    · cases he
  · split at he
    · exact hhanded _ _ _ _ e he
    · cases he
  · cases he

theorem addressed_run {s : ServerState E × List (ℕ × Handed E)} (h : HandRuns config s) :
    ∀ e ∈ s.2, s.1.seats e.2.queue e.2.client := by
  refine h.invariant (I := fun (p : ServerState E) log => ∀ e ∈ log, p.seats e.2.queue e.2.client) ?_ ?_
  · intro e he
    cases he
  · intro p log a p' hr hI _ hs e he
    rcases List.mem_append.mp he with he | he
    · exact seats_step hs (hI e he)
    · cases a with
      | spawn request => cases he
      | env d => cases he
      | run i a =>
        have hnext := hs
        obtain ⟨l, w', l', hl, hstep, rfl⟩ := Prog.next_run hs
        rw [journal_run hl] at he
        obtain ⟨x, hx, rfl⟩ := List.mem_map.mp he
        exact seats_step hnext (addressed_hands hr.reach x hx)

/-! ### Every run -/

/-- The direct messages of a run, from their senders to the sockets. -/
structure Directed (p : ServerState E) (log : List (ℕ × Handed E)) : Prop where
  /-- Each is for the client whose connection has the queue. -/
  addressed : ∀ e ∈ log, ∃ c, p.session e.2.queue = some c ∧ c.key = e.2.client
  /-- In a queue they are what was handed to it, in order and each once. -/
  delivered : ∀ j, directsIn (p.shared.queues j).placed = handedTo j (log.map Prod.snd)
  /-- A frame hands out one at most, and later frames later ones. -/
  framed : ∀ i c, p.session i = some c → (framesOf (entriesOf log i)).Pairwise (· < ·)
  /-- A call delivered exactly if it was told so. -/
  answered : ∀ i d, p.call i = some d → (entriesOf log i).length = d.pc.isDelivered.toNat
  /-- On the socket they come in the order of the queue, and until it is closed none is missing. -/
  written : ∀ j c, p.session j = some c → directsIn c.written <+: handedTo j (log.map Prod.snd)
  whole : ∀ j c, p.session j = some c → (p.shared.queues j).isOpen = true →
    handedTo j (log.map Prod.snd) =
      directsIn c.written ++ directsIn c.hand ++ directsIn (p.shared.queues j).buf

theorem directed {s : ServerState E × List (ℕ × Handed E)} (h : HandRuns config s) : Directed s.1 s.2 := by
  refine ⟨?_, handed_run h, ?_, ?_, ?_, ?_⟩
  · -- addressed
    intro e he
    obtain ⟨c, hc, -, hkey⟩ := addressed_run h e he
    exact ⟨c, hc, hkey⟩
  · -- framed
    intro i c hc
    exact (sourced_run h (session_eq_some.mp hc)).1
  · -- answered
    intro i d hd
    exact sourced_run h (call_eq_some.mp hd)
  · -- written
    intro j c hc
    rw [← handed_run h j]
    obtain ⟨rest, hrest⟩ := (List.prefix_append _ _).trans (piped_run h.reach hc).written
    exact ⟨directsIn rest, by rw [← hrest, directsIn_append]⟩
  · -- whole
    intro j c hc hopen
    rw [← handed_run h j, (piped_run h.reach hc).live hopen, directsIn_append, directsIn_append]

/-- A call sends to bob, who is connected, and one to alice, who is not. -/
def callsToBob : List (ServerAct Ext.plain) :=
  .spawn (.ws (.v4 1) ⟨"a", some "bob", none, none⟩) ::
      steps 0 (handshakeSteps ++ registerSteps ++ spawnSteps) ++
    .spawn (.api none (.direct ⟨"bob", none, "hi"⟩)) :: steps 1 [.call .resolve, .call .direct] ++
    .spawn (.api none (.direct ⟨"alice", none, "hi"⟩)) :: steps 2 [.call .resolve, .call .direct]

theorem directed_callsToBob : ∃ (p : ServerState Ext.plain) (log : List (ℕ × Handed Ext.plain)),
    (entriesOf log 1).length = 1 ∧ (entriesOf log 2).length = 0 ∧ (handedTo 0 (log.map Prod.snd)).length = 1 ∧
      Directed p log := by
  obtain ⟨p, log, h, hcheck⟩ := exec_log_check (server Ext.plain).next (journal Task.hands)
    (fun _ _ => true) (boot Ext.plain Config.plain) callsToBob
    (fun _ log => decide ((entriesOf log 1).length = 1 ∧ (entriesOf log 2).length = 0 ∧
      (handedTo 0 (log.map Prod.snd)).length = 1))
    (by decide +kernel)
  obtain ⟨hone, hnone, hqueue⟩ := of_decide_eq_true hcheck
  have hrun : HandRuns Config.plain (p, log) := h.mono fun _ _ _ => trivial
  exact ⟨p, log, hone, hnone, hqueue, directed hrun⟩

end WsServer
