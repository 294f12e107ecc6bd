import WsServer.Counters
import WsServer.Worded

/-! The topic in a message. A connection learns the name of its topic from its `Ready`, and every
    `Message` carries a name too. `/ws` takes both from the internal key; `/api/publish` takes the key
    from the normalized topic and the label from the topic as the caller wrote it. -/

namespace WsServer

open Lib

variable {E : Ext} {config : Config} {p : ServerState E} {i : ℕ} {c : Session E}

/-- The item is a `Message` with this topic. -/
def Item.IsMessageOn (topic : String) (x : Item E) : Prop :=
  ∃ sender requestId payload encoded,
    encodeServerEvent (.message topic sender requestId payload) = some encoded ∧
      x.msg = .binary encoded

/-- The item is a `Ready` with this topic. -/
def Item.IsReadyOn (topic : String) (x : Item E) : Prop :=
  ∃ clientId encoded, encodeServerEvent (.ready topic clientId) = some encoded ∧ x.msg = .binary encoded

/-- Whatever came to a connection over its topic has the label of its `Ready`. -/
def LabelsAgree (p : ServerState E) : Prop :=
  ∀ i c, p.session i = some c → ∀ x ∈ (p.shared.queues i).placed, ∀ seq, x.source = .topic seq →
    ∃ topic, x.IsMessageOn topic ∧
      ∀ y ∈ (p.shared.queues i).placed, y.source = .ready → y.IsReadyOn topic

/-- An HTTP publish whose topic is written the way its key reads. -/
def Call.isLabelled (d : Call E) : Bool :=
  match d.request with
  | .publish body =>
    let topic := body.topic.getD "public"
    topic = extractTopic (tenantTopic d.identity.tenantId (normalizeTopic topic))
  | .direct _ => true

/-- HTTP calls publish under the label of their key. -/
def labelled (p : ServerState E) : ServerAct E → Bool
  | .run i (.call .send) => (p.call i).all Call.isLabelled
  | _ => true

theorem extractTopic_tenantTopic {tenantId topic : String} (h : ':' ∉ tenantId.toList) :
    extractTopic (tenantTopic tenantId topic) = topic := by
  have hdrop : (tenantTopic tenantId topic).toList.dropWhile (· ≠ ':') = ':' :: topic.toList := by
    rw [tenantTopic_toList, List.dropWhile_append_of_pos]
    · exact List.dropWhile_cons_of_neg (by simp)
    · intro ch hch
      exact decide_eq_true fun he => h (he ▸ hch)
  rw [extractTopic, hdrop]
  exact String.ofList_toList

/-- A tenant id without a colon leaves the topic whole, so only normalizing can change it. -/
theorem isLabelled_iff {d : Call E} {body : PublishBody E.Value} (hb : d.request = .publish body)
    (h : ':' ∉ d.identity.tenantId.toList) :
    d.isLabelled = true ↔ normalizeTopic (body.topic.getD "public") = body.topic.getD "public" := by
  simp only [Call.isLabelled, hb, extractTopic_tenantTopic h, decide_eq_true_eq]
  exact eq_comm

/-! ### The result -/

/-- The label of a publish is the topic in its key. -/
def Publish.Labelled (q : Publish E) : Prop :=
  ∃ requestId payload, encodeServerEvent
    (.message (extractTopic q.key) q.by_.clientId requestId payload) = some q.encoded

theorem labelled_of_publication {l : Task E} {ch : ℕ} {q : Publish E} (hl : l.Worded)
    (hq : l.publication i = some (ch, q)) (hd : ∀ d, l = .http d → d.isLabelled = true) :
    q.Labelled := by
  cases l with
  | ws c =>
    simp only [Task.publication] at hq
    split at hq <;> cases hq
    rename_i hr
    have hw : c.Writes _ := hl _ (by rw [Task.hand, hr]; rfl)
    cases hw with
    | publish topic requestId payload h => exact ⟨requestId, payload, h⟩
  | http d =>
    simp only [Task.publication] at hq
    split at hq <;> cases hq
    rename_i hp
    have hw : d.Writes _ := hl _ (by rw [Task.hand, hp]; rfl)
    have hlabel := hd d rfl
    cases hw with
    | publish body hb h =>
      simp only [Call.isLabelled, hb, decide_eq_true_eq] at hlabel
      exact ⟨body.requestId, body.payload, by rw [← hlabel]; exact h⟩

theorem sends_of_publication {w : World E} {d : Call E} {a : CallAct} {s : World E × Call E} {ch : ℕ}
    {q : Publish E} (hq : (Task.http d).publication i = some (ch, q)) (h : Api.step w i d a = some s) :
    a = .send := by
  simp only [Task.publication] at hq
  split at hq
  · rename_i hp
    cases a <;> simp only [Api.step, hp, reduceCtorEq] at h ⊢
  · cases hq

theorem labelled_run (h : Runs config (fun p a => labelled p a = true) p) :
    ∀ q ∈ p.shared.published, q.Labelled := by
  refine h.invariant (I := fun (p : ServerState E) => ∀ q ∈ p.shared.published, q.Labelled)
    (by intro q hq; cases hq) ?_
  intro p a p' hr hI hok hs
  cases a with
  | spawn request => cases hs; exact hI
  | env d =>
    obtain ⟨w', he, rfl⟩ := Prog.next_env hs
    cases he
    exact hI
  | run i a =>
    obtain ⟨l, w', l', hl, (hstep : Task.step p.shared i l a = some (w', l')), rfl⟩ :=
      Prog.next_run hs
    rcases published_step hstep with he | ⟨ch, q, hq, he⟩
    · intro q hq
      exact hI q (by rwa [← he])
    · intro q' hq'
      rcases List.mem_append.mp (he ▸ hq' : q' ∈ p.shared.published ++ [q]) with hq' | hq'
      · exact hI q' hq'
      · obtain rfl := List.mem_singleton.mp hq'
        refine labelled_of_publication (worded_run hr hl) hq ?_
        rintro d rfl
        obtain ⟨d', b, rfl, rfl, hcall⟩ := step_http hstep
        obtain rfl := sends_of_publication hq hcall
        rw [labelled, call_eq_some.mpr hl] at hok
        exact hok

/-- From `register_client` on a connection keeps its identity and its topic. -/
theorem late_step {w : World E} {r : World E × Session E} {a : TaskAct} (hrank : 6 ≤ c.stage.rank)
    (h : Session.step w i c a = some r) :
    r.2.identity = c.identity ∧ r.2.topicKey = c.topicKey ∧ 6 ≤ r.2.stage.rank := by
  cases a with
  | handshake b =>
    have hf := Handshake.step_framed h
    rcases Handshake.stage_step h with ⟨hb, -⟩ | ⟨hst, hid⟩
    · rw [rank_of_isHandshake hb] at hrank; omega
    · exact ⟨hid, congrArg Seat.topicKey hf.seat, by rw [hst]; exact hrank⟩
  | setup b =>
    have hid : r.2.identity = c.identity := congrArg Ticket.identity (Setup.step_framed h).ticket
    refine ⟨hid, ?_⟩
    have h : Setup.step w i c b = some r := h
    cases b <;> simp only [Setup.step, Option.ite_none_right_eq_some, Option.some.injEq] at h <;>
      obtain ⟨hst, rfl⟩ := h
    case ready =>
      unfold Setup.ready
      split
      · exact ⟨rfl, by simp [Stage.rank]⟩
      · exact ⟨rfl, by simp [Stage.rank]⟩
    case spawnWriter | spawnFanout | spawnReader => exact ⟨rfl, by simp [Stage.rank]⟩
    all_goals exact absurd hrank (by rw [hst]; decide)
  | writer b =>
    have hf := Writer.step_framed h
    exact ⟨congrArg Ticket.identity hf.ticket, congrArg Seat.topicKey hf.seat,
      by rw [hf.stage]; exact hrank⟩
  | fanout b =>
    have hf := Fanout.step_framed h
    exact ⟨congrArg Ticket.identity hf.ticket, congrArg Seat.topicKey hf.seat,
      by rw [hf.stage]; exact hrank⟩
  | reader b =>
    have hk := (Reader.step_framed h).kept
    exact ⟨congrArg Ticket.identity hk.ticket, congrArg Seat.topicKey hk.seat,
      by rw [hk.stage]; exact hrank⟩
  | supervise b =>
    have hf := Supervise.step_framed h
    refine ⟨congrArg Ticket.identity hf.ticket, congrArg Seat.topicKey hf.seat, ?_⟩
    rcases supervise_rank h with ⟨-, hr⟩ | ⟨-, hr, -⟩
    · omega
    · rw [hr]; decide
  | call b => cases h

/-- The only `Ready` in a queue is that of its connection. -/
theorem ready_own {ok : ServerState E → ServerAct E → Prop} (h : Runs config ok p)
    (hc : p.session i = some c) {y : Item E} (hy : y ∈ (p.shared.queues i).placed)
    (hsource : y.source = .ready) : c.IsReady y := by
  have hkeep : Keeps (fun _ _ => True) (fun (w : World E) i c => ∀ y ∈ (w.queues i).placed,
      y.source = .ready → c.IsReady y ∧ 6 ≤ c.stage.rank) p := by
    refine session_rule trivial (fun _ _ _ => trivial) ?_ ?_ (fun _ _ _ _ _ _ _ _ _ => trivial) ?_
      (fun _ _ _ _ => trivial) (fun _ _ _ _ hK => hK) h
    · -- arrive
      intro p ip query hr _ y hy _
      rw [absent_run hr le_rfl] at hy
      cases hy
    · -- own
      intro p i c a r hr hI _ hc hs
      refine ⟨trivial, ?_⟩
      intro y hy hsource
      have hbefore : c.IsReady y ∧ 6 ≤ c.stage.rank := by
        have hstep : Task.step p.shared i (.ws c) a = some (r.1, .ws r.2) := by
          rw [Task.step, hs]; rfl
        rcases (step_puts hstep).mem hy with hold | hnew
        · exact hI.session i c hc y hold hsource
        · cases hnew with
          | ready own hst hx => exact ⟨hx, by rw [hst]; decide⟩
          | control own hx hmsg => rcases hx with hx | hx <;> rw [hx] at hsource <;> cases hsource
          | _ => cases hsource
      obtain ⟨hid, hkey, hrank⟩ := late_step hbefore.2 hs
      refine ⟨?_, hrank⟩
      unfold Session.IsReady
      rw [hid, hkey]
      exact hbefore.1
    · -- other
      intro p i l a w' l' j c hr hI _ hne hl hc hs y hy hsource
      rcases (step_puts hs).mem hy with hold | hnew
      · exact hI.session j c hc y hold hsource
      · cases hnew with
        | ready own hst hx => exact (hne own).elim
        | control own hx hmsg => exact (hne own).elim
        | _ => cases hsource
  exact (hkeep.session i c hc y hy hsource).1

theorem labels_agree (h : Runs config (fun p a => labelled p a = true) p) : LabelsAgree p := by
  intro i c hc x hx seq hseq
  obtain ⟨-, q, hq, hmsg, hkey⟩ := received_key h.toAlways hc hx hseq
  obtain ⟨requestId, payload, hencode⟩ := labelled_run h q (List.mem_of_getElem? hq)
  refine ⟨extractTopic c.topicKey, ⟨_, requestId, payload, _, by rw [← hkey]; exact hencode, hmsg⟩, ?_⟩
  intro y hy hsource
  obtain ⟨encoded, hready, rfl⟩ := ready_own h hc hy hsource
  exact ⟨_, encoded, hready, rfl⟩

/-- A subscriber of `public`, and a publish over HTTP that reaches him. -/
def publishTo (topic : String) : List (ServerAct Ext.plain) :=
  subscriberReady ++ .spawn (.api none (.publish ⟨some topic, none, "hi"⟩)) ::
    steps 1 [.call .resolve, .call .locate, .call .send] ++ steps 0 [.fanout .recv, .fanout .forward]

theorem labels_agree_public : ∃ p : ServerState Ext.plain,
    (p.shared.queues 0).placed.length = 2 ∧ LabelsAgree p := by
  obtain ⟨p, hp, hc⟩ := play_check Config.plain labelled (publishTo "public")
    (fun p => (p.shared.queues 0).placed.length = 2) (by decide +kernel)
  exact ⟨p, of_decide_eq_true hc, labels_agree hp⟩

def Item.event (x : Item Ext.plain) : Option (ServerEvent String) :=
  match x.msg with
  | .binary bytes => some bytes
  | _ => none

/-- The subscriber of `public` gets a message labelled ` public`. -/
theorem labels_disagree : ¬ ∀ (E : Ext) (config : Config) (p : ServerState E),
    Runs config always p → LabelsAgree p := by
  intro hagree
  obtain ⟨p, hp, hc⟩ := play_check Config.plain (fun _ _ => true) (publishTo " public")
    (fun p => (p.session 0).isSome && decide
      ((p.shared.queues 0).placed.map (fun x => (x.event, x.source)) =
        [(some (.ready "public" "anonymous"), .ready),
          (some (.message " public" "api" none "hi"), .topic 0)])) (by decide +kernel)
  rw [Bool.and_eq_true, decide_eq_true_eq] at hc
  obtain ⟨c, hc0⟩ := Option.isSome_iff_exists.mp hc.1
  have hy : (some (ServerEvent.ready "public" "anonymous"), Source.ready) ∈
      (p.shared.queues 0).placed.map fun x => (x.event, x.source) := by
    rw [hc.2]; exact List.mem_cons_self
  have hx : (some (ServerEvent.message " public" "api" none "hi"), Source.topic 0) ∈
      (p.shared.queues 0).placed.map fun x => (x.event, x.source) := by
    rw [hc.2]; exact List.mem_cons_of_mem _ List.mem_cons_self
  obtain ⟨y, hy, hyevent⟩ := List.mem_map.mp hy
  obtain ⟨x, hx, hxevent⟩ := List.mem_map.mp hx
  rw [Prod.mk.injEq] at hyevent hxevent
  obtain ⟨topic, ⟨sender, requestId, payload, encoded, hencode, hmsg⟩, hready⟩ :=
    hagree Ext.plain Config.plain p hp.toAlways 0 c hc0 x hx 0 hxevent.2
  obtain ⟨clientId, encoded', hencode', hmsg'⟩ := hready y hy hyevent.2
  obtain rfl : ServerEvent.message topic sender requestId payload = encoded := Option.some.inj hencode
  obtain rfl : ServerEvent.ready topic clientId = encoded' := Option.some.inj hencode'
  rw [Item.event, hmsg] at hxevent
  rw [Item.event, hmsg'] at hyevent
  have hready : topic = "public" := (ServerEvent.ready.inj (Option.some.inj hyevent.1)).1
  have hmessage : topic = " public" := (ServerEvent.message.inj (Option.some.inj hxevent.1)).1
  rw [hready] at hmessage
  exact absurd hmessage (by decide)

end WsServer
