import WsServer.Clients
import WsServer.Delivery

/-! The order of topic messages, from the publishing connection to the subscriber's queue. Publishes
    are numbered in one total order; a connection publishes its frames in the order it read them, and
    what a subscriber's fanout put into its queue has growing numbers. -/

namespace WsServer

open Lib

variable {E : Ext} {w : World E} {i : ℕ} {c : Session E} {r : World E × Session E}

/-! ### Publishes follow the frames of their connection -/

/-- The reader may still publish for the frame it read last. -/
def Session.mayPublish (c : Session E) : Bool :=
  match c.reader with
  | .checking _ | .publishing _ _ | .sending _ _ _ => true
  | _ => false

theorem published_step {l l' : Task E} {a : TaskAct} {w' : World E}
    (h : Task.step w i l a = some (w', l')) :
    w'.published = w.published ∨
      ∃ ch p, l.publication i = some (ch, p) ∧ w'.published = w.published ++ [p] := by
  rcases task_wiring h with ht | ⟨ch, f, e, -⟩
  · cases ht with
    | same e => exact Or.inl (congrArg Wiring.published e)
    | created key cap new e => exact Or.inl (congrArg Wiring.published e)
    | published ch p aim e => exact Or.inr ⟨ch, p, aim, congrArg Wiring.published e⟩
  · exact Or.inl (congrArg Wiring.published e)

/-- A publication names its task. -/
theorem publication_origin {l : Task E} {ch : ℕ} {p : Publish E}
    (h : l.publication i = some (ch, p)) :
    (∃ c, l = .ws c ∧ p.origin = .ws i c.frames ∧ c.mayPublish = true) ∨ p.origin = .http i := by
  cases l with
  | ws c =>
    simp only [Task.publication] at h
    split at h <;> cases h
    rename_i hr
    exact Or.inl ⟨c, rfl, rfl, by rw [Session.mayPublish, hr]⟩
  | http d =>
    simp only [Task.publication] at h
    split at h <;> cases h
    exact Or.inr rfl

theorem mayPublish_sendError (now : ℕ) (code message : String) :
    (c.sendError now code message).mayPublish = false := by
  unfold Session.sendError
  split <;> rfl

theorem frames_sendError (now : ℕ) (code message : String) :
    (c.sendError now code message).frames = c.frames := by
  unfold Session.sendError
  split <;> rfl

theorem frames_handle (f : Inbound) : (Reader.handle w c f).2.frames = c.frames := by
  have hevent : ∀ event, (Reader.handleClientEvent w c event).2.frames = c.frames := by
    rintro event
    cases event <;> simp only [Reader.handleClientEvent] <;> split <;>
      first | rfl | exact frames_sendError _ _ _
  cases f <;> simp only [Reader.handle] <;> split <;>
    first | exact hevent _ | exact frames_sendError _ _ _

theorem frames_frame (f : Frame) : (Reader.frame w i c f).2.frames = c.frames := by
  have hgate : ∀ tooLarge g, (Reader.gate w c tooLarge g).2.frames = c.frames := by
    rintro tooLarge g
    simp only [Reader.gate]
    split
    · rfl
    · split
      · exact frames_sendError _ _ _
      · rfl
  cases f with
  | text t => exact hgate _ _
  | binary raw => exact hgate _ _
  | ping payload | pong | close | eof | failure => rfl

/-- A reader counts a frame, or goes on with the last one and publishes at the very end of it. -/
theorem reader_frames {a : ReaderAct} (h : Reader.step w i c a = some r) :
    (r.2.frames = c.frames + 1 ∧ r.1.published = w.published) ∨
      (r.2.frames = c.frames ∧
        (r.2.mayPublish = true → c.mayPublish = true ∧ r.1.published = w.published)) := by
  cases a with
  | frame f =>
    simp only [Reader.step] at h
    split at h <;> cases h
    exact Or.inl ⟨frames_frame f, congrArg Wiring.published (Reader.frame_wiring f)⟩
  | tenantRate =>
    simp only [Reader.step] at h
    split at h <;> cases h
    rename_i f hr
    refine Or.inr ⟨?_, fun _ => ⟨by rw [Session.mayPublish, hr],
      congrArg Wiring.published (Reader.tenantRate_quiet f).2.2.1⟩⟩
    simp only [Reader.tenantRate]
    split
    · exact frames_sendError _ _ _
    · exact frames_handle f
  | locate =>
    simp only [Reader.step] at h
    split at h <;> cases h
    rename_i key encoded hr
    have hmay : c.mayPublish = true := by rw [Session.mayPublish, hr]
    unfold Reader.locate
    split
    · rename_i s hs
      refine Or.inr ⟨rfl, fun _ => ⟨hmay, ?_⟩⟩
      rcases wiring_topicSender hs with ⟨-, he⟩ | ⟨-, -, cap, he⟩ <;>
        exact congrArg Wiring.published he
    · exact Or.inr ⟨rfl, fun _ => ⟨hmay, rfl⟩⟩
  | direct =>
    simp only [Reader.step] at h
    split at h <;> cases h
    simp only [Reader.direct]
    split
    · exact Or.inr ⟨frames_sendError _ _ _, fun hm => by rw [mayPublish_sendError] at hm; cases hm⟩
    · exact Or.inr ⟨rfl, fun h => by cases h⟩
  | limitError =>
    simp only [Reader.step] at h
    split at h <;> cases h
    simp only [Reader.limitError]
    split <;> exact Or.inr ⟨rfl, fun h => by cases h⟩
  | start | send | reply | limitClose =>
    simp only [Reader.step] at h
    split at h <;> cases h
    exact Or.inr ⟨rfl, fun h => by cases h⟩
  | idleTimeout =>
    simp only [Reader.step] at h
    split at h
    · split at h <;> cases h
      exact Or.inr ⟨rfl, fun h => by cases h⟩
    · cases h

/-- The publishes of a connection are numbered in the order of its frames. -/
structure Framewise (n : ℕ) (l : List (Publish E)) : Prop where
  arrived : ∀ p ∈ l, ∀ j f, p.origin = .ws j f → j < n
  order : l.Pairwise fun p q => ∀ j f f', p.origin = .ws j f → q.origin = .ws j f' → f < f'

/-- What connection `i` published came from frames it has read, and nothing from the frame it may
    still publish. -/
def PublishedOf (l : List (Publish E)) (i : ℕ) (c : Session E) : Prop :=
  ∀ p ∈ l, ∀ f, p.origin = .ws i f → f ≤ c.frames ∧ (c.mayPublish = true → f < c.frames)

/-- Other tasks of a connection read no frame and publish nothing. -/
theorem session_frames {a : TaskAct} (h : Session.step w i c a = some r) (ha : ∀ b, a ≠ .reader b) :
    r.2.frames = c.frames ∧ r.1.published = w.published := by
  have hrx : RxStep w.wiring i r.1.wiring → r.1.published = w.published := by
    rintro ⟨ch, f, e, -⟩
    exact congrArg Wiring.published e
  cases a with
  | handshake b =>
    have hf := Handshake.step_framed h
    exact ⟨hf.frames, congrArg Wiring.published hf.wiring⟩
  | setup b =>
    refine ⟨(Setup.step_framed h).frames, ?_⟩
    rcases (setup_wiring h : TopicStep w.wiring none r.1.wiring ∨ _) with ht | hr
    · cases ht with
      | same e => exact congrArg Wiring.published e
      | created key cap new e => exact congrArg Wiring.published e
      | published ch p aim e => cases aim
    · exact hrx hr
  | writer b =>
    have hf := Writer.step_framed h
    exact ⟨hf.frames, congrArg Wiring.published hf.wiring⟩
  | fanout b =>
    refine ⟨(Fanout.step_framed h).frames, ?_⟩
    rcases fanout_rxStep h with he | hr
    · exact congrArg Wiring.published he
    · exact hrx hr
  | supervise b =>
    refine ⟨(Supervise.step_framed h).frames, ?_⟩
    rcases supervise_fanout h with ⟨he, -⟩ | ⟨hr, -⟩
    · exact congrArg Wiring.published he
    · exact hrx hr
  | reader b => exact absurd rfl (ha b)
  | call b => cases h

theorem session_mayPublish {a : TaskAct} (h : Session.step w i c a = some r)
    (ha : ∀ b, a ≠ .reader b) : r.2.mayPublish = true → c.mayPublish = true := by
  unfold Session.mayPublish
  rcases session_reader h ha with he | he | he <;> rw [he]
  · exact id
  · exact nofun
  · exact nofun

/-- A connection keeps `PublishedOf`. -/
theorem PublishedOf.step {a : TaskAct} (h : PublishedOf w.published i c)
    (hs : Session.step w i c a = some r) : PublishedOf r.1.published i r.2 := by
  rintro q hq f ho
  by_cases hread : ∃ b, a = .reader b
  · obtain ⟨b, rfl⟩ := hread
    rcases reader_frames hs with ⟨hf, hpub⟩ | ⟨hf, hmay⟩
    · rw [hpub] at hq
      have hle := (h q hq f ho).1
      omega
    · rw [hf]
      have hstep : Task.step w i (.ws c) (.reader b) = some (r.1, .ws r.2) := by
        simp only [Task.step, hs, Option.map_some]
      rcases published_step hstep with he | ⟨ch, p, hp, he⟩
      · rw [he] at hq
        obtain ⟨hle, hlt⟩ := h q hq f ho
        exact ⟨hle, fun hm => hlt (hmay hm).1⟩
      · refine ⟨?_, fun hm => ?_⟩
        · rw [he] at hq
          rcases List.mem_append.mp hq with hq | hq
          · exact (h q hq f ho).1
          · obtain rfl := List.mem_singleton.mp hq
            rcases publication_origin hp with ⟨d, hd, ho', -⟩ | ho'
            · cases hd; rw [ho'] at ho; cases ho; exact le_rfl
            · rw [ho'] at ho; cases ho
        · have hsame := (hmay hm).2
          rw [he] at hsame
          simp at hsame
  · have hread' : ∀ b, a ≠ .reader b := fun b e => hread ⟨b, e⟩
    obtain ⟨hf, hpub⟩ := session_frames hs hread'
    rw [hpub] at hq
    obtain ⟨hle, hlt⟩ := h q hq f ho
    rw [hf]
    exact ⟨hle, fun hm => hlt (session_mayPublish hs hread' hm)⟩

/-- The publication of a task that has the right to publish is the latest of its connection. -/
theorem Framewise.push {n : ℕ} {l : List (Publish E)} (h : Framewise n l) (hi : i < n)
    {t : Task E} {ch : ℕ} {p : Publish E} (ht : ∀ c, t = .ws c → PublishedOf l i c)
    (hp : t.publication i = some (ch, p)) : Framewise n (l ++ [p]) := by
  refine ⟨fun q hq j f ho => ?_, ?_⟩
  · rcases List.mem_append.mp hq with hq | hq
    · exact h.arrived q hq j f ho
    · obtain rfl := List.mem_singleton.mp hq
      rcases publication_origin hp with ⟨c, -, he, -⟩ | he
      · rw [he] at ho; cases ho; exact hi
      · rw [he] at ho; cases ho
  · rw [List.pairwise_append]
    refine ⟨h.order, List.pairwise_singleton _ _, fun q hq q' hq' j f f' ho ho' => ?_⟩
    obtain rfl := List.mem_singleton.mp hq'
    rcases publication_origin hp with ⟨c, hc, he, hmay⟩ | he
    · rw [he] at ho'; cases ho'
      exact (ht c hc q hq f ho).2 hmay
    · rw [he] at ho'; cases ho'

theorem framewise_run {config : Config} {ok : ServerState E → ServerAct E → Prop}
    {p : ServerState E} (h : Runs config ok p) :
    Holds (fun n w => Framewise n w.published)
      (fun w i t => ∀ c, t = Task.ws c → PublishedOf w.published i c) p := by
  refine Prog.rely_guarantee ?_ ?_ ?_ ?_ ?_ h
  · -- boot
    exact ⟨⟨nofun, .nil⟩, fun i l hl => by simp [boot] at hl⟩
  · -- start
    rintro p request - hI
    refine ⟨⟨fun q hq j f ho => ?_, hI.shared.order⟩, fun c _ q hq f ho => ?_⟩
    · exact Nat.lt_succ_of_lt (hI.shared.arrived q hq j f ho)
    · exact absurd (hI.shared.arrived q hq _ f ho) (Nat.lt_irrefl _)
  · -- own
    rintro p i l a w' l' - hI - hl (hs : Task.step p.shared i l a = some (w', l'))
    have hlt : i < p.threads.length := (List.getElem?_eq_some_iff.mp hl).1
    have hK := hI.each i l hl
    refine ⟨?_, ?_⟩
    · rcases published_step hs with he | ⟨ch, q, hq, he⟩
      · rw [he]; exact hI.shared
      · rw [he]; exact hI.shared.push hlt hK hq
    · rintro c' rfl
      cases l with
      | http d =>
        obtain ⟨d', b, hd, -⟩ := step_http hs
        cases hd
      | ws c =>
        obtain ⟨c'', hc, hstep⟩ := step_ws hs
        cases hc
        exact (hK c rfl).step hstep
  · -- other
    rintro p i l a w' l' j m - hI - hne - hm (hs : Task.step p.shared i l a = some (w', l')) c hc
    have hK := hI.each j m hm c hc
    rcases published_step hs with he | ⟨ch, q, hq, he⟩
    · rw [he]; exact hK
    · rintro q' hq' f ho
      rw [he] at hq'
      rcases List.mem_append.mp hq' with hq' | hq'
      · exact hK q' hq' f ho
      · obtain rfl := List.mem_singleton.mp hq'
        rcases publication_origin hq with ⟨d, -, ho', -⟩ | ho' <;> rw [ho'] at ho <;> cases ho
        exact absurd rfl hne
  · -- env
    rintro p e w' hI he
    cases he
    exact ⟨hI.shared, hI.each⟩

/-! ### Nothing after the first message that does not fit -/

/-- A fanout that has stopped stays so, and no topic message is added to the queue. -/
theorem stopped_own {a : TaskAct} {m : Sent E} (hc : c.Shaped) (hm : c.fanout = .stopped m)
    (h : Session.step w i c a = some r) :
    r.2.fanout = .stopped m ∧ forwarded (r.1.queues i) = forwarded (w.queues i) := by
  cases a with
  | handshake b =>
    have hf := Handshake.step_framed h
    exact ⟨hf.fanout.trans hm, by rw [hf.queues]⟩
  | writer b =>
    have hf := Writer.step_framed h
    exact ⟨hf.fanout.trans hm, by rw [forwarded, hf.placed, forwarded]⟩
  | supervise b =>
    have hf := Supervise.step_framed h
    rcases supervise_fanout h with ⟨-, he⟩ | ⟨-, he, -⟩
    · exact ⟨he.trans hm, by rw [forwarded, hf.placed, forwarded]⟩
    · rw [hm] at he; cases he
  | fanout b => cases b <;> simp [Session.step, Fanout.step, hm] at h
  | reader b =>
    have hf := Reader.step_framed h
    refine ⟨hf.kept.fanout.trans hm, forwarded_grew (hf.queues i) ?_⟩
    rintro x (⟨-, hx⟩ | ⟨-, hx⟩)
    · exact message?_of_isOwn hx
    · simp [Item.message?, hx]
  | setup b =>
    -- only the spawn of the reader comes after that of the fanout
    have hrank : 9 ≤ c.stage.rank := by
      by_contra hlt
      rw [hc.fanout (by omega)] at hm; cases hm
    cases b <;>
      simp only [Session.step, Setup.step, Option.ite_none_right_eq_some, Option.some.injEq] at h <;>
      obtain ⟨hs, rfl⟩ := h
    case spawnReader => exact ⟨hm, rfl⟩
    all_goals simp [hs, Stage.rank] at hrank
  | call b => cases h

theorem stopped_run {config : Config} {p p' : ServerState E} (h : Runs config always p)
    {m : Sent E} (hc : p.session i = some c) (hm : c.fanout = .stopped m)
    (h' : Reach (server E).next always p p') :
    ∃ c', p'.session i = some c' ∧ c'.fanout = .stopped m ∧
      forwarded (p'.shared.queues i) = forwarded (p.shared.queues i) := by
  refine h'.invariant (I := fun q : ServerState E =>
    ∃ c', q.session i = some c' ∧ c'.fanout = .stopped m ∧
    forwarded (q.shared.queues i) = forwarded (p.shared.queues i)) ⟨c, hc, hm, rfl⟩ ?_
  rintro q a q' hq ⟨d, hd, hdm, hsame⟩ - hs
  have hqr : Runs config always q := Reach.trans h hq
  cases progress hs hd with
  | own b d' now step =>
    obtain ⟨hm', hf⟩ := stopped_own (shaped_run hqr hd) hdm step
    exact ⟨d', now, hm', hf.trans hsame⟩
  | other j l l' b ne now step =>
    refine ⟨d, now, hdm, (forwarded_grew (queue_other ne step) ?_).trans hsame⟩
    rintro x ⟨-, s, hx⟩
    simp [Item.message?, hx]
  | quiet t now shared => exact ⟨d, now, hdm, by rw [shared]; exact hsame⟩

/-! ### The order of what a subscriber gets -/

/-- The publish numbers of the topic messages ever put into queue `i`, in order. -/
def World.numbers (w : World E) (i : ℕ) : List ℕ := (forwarded (w.queues i)).map Prod.fst

theorem Cursor.sublist {g : Wiring E} {fwd : List (ℕ × OutboundMessage E)} (h : Cursor g fwd i c) :
    ((fwd ++ c.inHand).map Prod.fst).Sublist (g.seqsOn c.topicKey c.subMark) := by
  rw [h.forwarded]
  exact (List.filter_sublist.map _).trans h.passed.sublist

/-- A sorted list holds its prefixes downward closed. -/
theorem mem_of_initial {l l' : List ℕ} (hp : l <+: l') (hs : l'.Pairwise (· < ·)) {s t : ℕ}
    (ht : t ∈ l) (hmem : s ∈ l') (hlt : s < t) : s ∈ l := by
  obtain ⟨rest, rfl⟩ := hp
  rcases List.mem_append.mp hmem with h | h
  · exact h
  · exact absurd ((List.pairwise_append.mp hs).2.2 t ht s h) (by omega)

/-- A publish before a forwarded one was forwarded too, or skipped as lagged. -/
theorem Cursor.gap {g : Wiring E} {fwd : List (ℕ × OutboundMessage E)} (h : Cursor g fwd i c)
    {s t : ℕ} (hs : s ∈ g.seqsOn c.topicKey c.subMark) (ht : t ∈ fwd.map Prod.fst) (hlt : s < t) :
    s ∈ fwd.map Prod.fst ∨ (s, false) ∈ c.passed := by
  have hsort := g.seqsOn_pairwise c.topicKey c.subMark
  have hfwd := h.forwarded
  rw [List.map_append] at hfwd
  have htp : t ∈ c.passed.map Prod.fst := by
    have hmem : t ∈ (c.passed.filter (·.2)).map Prod.fst := by
      rw [← hfwd]; exact List.mem_append_left _ ht
    exact (List.filter_sublist.map _).subset hmem
  obtain ⟨⟨s', b⟩, he, rfl⟩ := List.mem_map.mp (mem_of_initial h.passed hsort htp hs hlt)
  cases b with
  | false => exact Or.inr he
  | true =>
    left
    have hmem : s' ∈ (c.passed.filter (·.2)).map Prod.fst :=
      List.mem_map_of_mem (List.mem_filter.mpr ⟨he, rfl⟩)
    rw [← hfwd] at hmem
    rcases List.mem_append.mp hmem with hm | hm
    · exact hm
    · -- what is in hand came after everything forwarded
      have hord := hsort.sublist h.sublist
      rw [List.map_append, List.pairwise_append] at hord
      exact absurd (hord.2.2 t ht s' hm) (Nat.lt_asymm hlt)

/-- Two growing lists have their common elements in the same order. -/
theorem common_order {l l' : List ℕ} (h : l.Pairwise (· < ·)) (h' : l'.Pairwise (· < ·)) :
    l.filter (· ∈ l') = l'.filter (· ∈ l) := by
  refine List.Perm.eq_of_pairwise (fun a b _ _ hab hba => absurd hab (Nat.lt_asymm hba))
    (h.filter _) (h'.filter _) ?_
  rw [List.perm_ext_iff_of_nodup (h.nodup.filter _) (h'.nodup.filter _)]
  rintro a
  simp [and_comm]

/-- Queue `i` has no place for another item. -/
def World.unfit (w : World E) (i : ℕ) : Prop :=
  (w.queues i).isOpen = false ∨ (w.queues i).cap ≤ (w.queues i).buf.length

/-- Ordered, duplicate-free delivery over topics, in a state `p` and from there on. -/
structure OrderedDelivery (p : ServerState E) : Prop where
  oneChannel : ∀ key ch, p.shared.app.topics.lookup key = some ch ↔
    p.shared.wiring.keyOf ch = some key
  sameChannel : ∀ p' key ch, Reach (server E).next always p p' →
    p.shared.app.topics.lookup key = some ch → p'.shared.app.topics.lookup key = some ch
  subsequence : ∀ i c, p.session i = some c →
    (p.shared.numbers i).Sublist (p.shared.wiring.seqsOn c.topicKey c.subMark)
  once : ∀ i c, p.session i = some c → (p.shared.numbers i).Nodup
  genuine : ∀ i c, p.session i = some c → ∀ e ∈ forwarded (p.shared.queues i),
    p.shared.wiring.Carries e
  gaps : ∀ i c s t, p.session i = some c → s ∈ p.shared.wiring.seqsOn c.topicKey c.subMark →
    t ∈ p.shared.numbers i → s < t → s ∈ p.shared.numbers i ∨ (s, false) ∈ c.passed
  stops : ∀ i p' p'', p.shared.unfit i →
    (server E).next p (.run i (.fanout .forward)) = some p' →
    Reach (server E).next always p' p'' →
    forwarded (p''.shared.queues i) = forwarded (p.shared.queues i)
  commonOrder : ∀ i j c d, p.session i = some c → p.session j = some d →
    (p.shared.numbers i).filter (· ∈ p.shared.numbers j) =
      (p.shared.numbers j).filter (· ∈ p.shared.numbers i)
  publisherOrder : ∀ i c s t j f f' pub pub', p.session i = some c →
    [s, t].Sublist (p.shared.numbers i) →
    p.shared.published[s]? = some pub → pub.origin = .ws j f →
    p.shared.published[t]? = some pub' → pub'.origin = .ws j f' → f < f'

/-- A forward that finds no place ends the fanout. -/
theorem forward_unfit {m : Sent E} (hu : w.unfit i) :
    (Fanout.forward w i c m).2.fanout = .stopped m ∧
      (Fanout.forward w i c m).1.queues i = w.queues i := by
  have hq := World.queues_sendEncoded w i m.bytes (.topic m.seq)
  simp only [Fanout.forward, World.sendEncoded_fst]
  rcases World.trySend_cases w i ⟨.binary m.bytes, .topic m.seq⟩ with ⟨q, hsend, -⟩ | ⟨-, ht⟩
  · obtain ⟨ho, hlt, -⟩ := Queue.trySend_ok hsend
    rcases hu with hu | hu
    · rw [ho] at hu; cases hu
    · omega
  · rw [ht] at hq
    simp only [ht, Bool.false_eq_true, if_false]
    exact ⟨trivial, by rw [World.queues_dropRx, hq]⟩

theorem topics_keep {config : Config} {p p' : ServerState E} (h : Runs config always p)
    (h' : Reach (server E).next always p p') {key : String} {ch : ℕ}
    (hl : p.shared.app.topics.lookup key = some ch) :
    p'.shared.app.topics.lookup key = some ch := by
  refine h'.invariant (I := fun q : ServerState E => q.shared.app.topics.lookup key = some ch) hl ?_
  rintro q a q' hq hlq ha hs
  have hqr : Runs config always q := Reach.trans h hq
  have hkey := ((wired_run hqr).shared key ch).mp hlq
  refine ((wired_run (hqr.tail ha hs)).shared key ch).mpr ?_
  cases a with
  | spawn request => cases hs; exact hkey
  | env d => cases hs; exact hkey
  | run j b =>
    obtain ⟨l, w', l', -, hstep, rfl⟩ := Prog.next_run hs
    exact keyOf_step (task_wiring hstep) hkey

theorem ordered_delivery {config : Config} {p : ServerState E} (h : Runs config always p) :
    OrderedDelivery p := by
  have hsorted : ∀ i c, p.session i = some c → (p.shared.numbers i).Pairwise (· < ·) := by
    rintro i c hc
    have hcur := (cursor_run h).session i c hc
    have hs := (p.shared.wiring.seqsOn_pairwise c.topicKey c.subMark).sublist hcur.sublist
    rw [List.map_append, List.pairwise_append] at hs
    exact hs.1
  refine ⟨(wired_run h).shared, fun p' key ch h' hl => topics_keep h h' hl, ?_, ?_, ?_, ?_, ?_, ?_,
    ?_⟩
  · -- subsequence
    rintro i c hc
    have hsub := ((cursor_run h).session i c hc).sublist
    rw [List.map_append] at hsub
    exact (List.sublist_append_left _ _).trans hsub
  · -- once
    exact fun i c hc => (hsorted i c hc).nodup
  · -- genuine
    exact fun i c hc e he => ((cursor_run h).session i c hc).carried e (List.mem_append_left _ he)
  · -- gaps
    exact fun i c s t hc hs ht hlt => ((cursor_run h).session i c hc).gap hs ht hlt
  · -- stops
    rintro i p' p'' hu hs h'
    obtain ⟨l, w', l', hl, (hstep : Task.step p.shared i l _ = _), rfl⟩ := Prog.next_run hs
    have hlt := (List.getElem?_eq_some_iff.mp hl).1
    cases l with
    | http d =>
      obtain ⟨d', b, -, hb, -⟩ := step_http hstep
      cases hb
    | ws c =>
      obtain ⟨c', rfl, hf⟩ := step_ws hstep
      simp only [Session.step, Fanout.step] at hf
      split at hf
      · rename_i m _
        rw [Option.some.injEq] at hf
        have hstop := forward_unfit (c := c) (m := m) hu
        rw [hf] at hstop
        have hr' : Runs config always _ := h.tail trivial hs
        obtain ⟨-, -, -, he⟩ := stopped_run hr'
          (session_eq_some.mpr (List.getElem?_set_self hlt)) hstop.1 h'
        rw [he, forwarded, hstop.2, forwarded]
      · cases hf
  · -- commonOrder
    exact fun i j c d hc hd => common_order (hsorted i c hc) (hsorted j d hd)
  · -- publisherOrder
    rintro i c s t j f f' pub pub' hc hsub hs ho ht ho'
    have hlt : s < t := by
      have hp := (hsorted i c hc).sublist hsub
      rw [List.pairwise_pair] at hp
      exact hp
    obtain ⟨hs', rfl⟩ := List.getElem?_eq_some_iff.mp hs
    obtain ⟨ht', rfl⟩ := List.getElem?_eq_some_iff.mp ht
    exact List.pairwise_iff_getElem.mp (framewise_run h).shared.order s t hs' ht' hlt j f f' ho ho'

/-- A connection reads a frame that publishes, and carries it out. -/
def publishSteps : List TaskAct :=
  [.reader (.frame (.text "\x7b\"kind\":\"publish\",\"payload\":\"hi\"\x7d")),
    .reader .tenantRate, .reader .locate, .reader .send]

/-- Bob subscribes, alice publishes, and bob's fanout forwards the message. -/
def aliceToBob : List (ServerAct Ext.plain) :=
  .spawn (loginAs "bob") :: steps 0 (handshakeSteps ++ registerSteps ++ spawnSteps) ++
    .spawn (loginAs "alice") :: steps 1 (handshakeSteps ++ registerSteps ++ spawnSteps ++ publishSteps) ++
    steps 0 [.fanout .recv, .fanout .forward]

/-- Then bob publishes as well, alice once more a second later, and both take what is there. -/
def bothPublish : List (ServerAct Ext.plain) :=
  aliceToBob ++ steps 0 publishSteps ++ .env 1000000000 :: steps 1 publishSteps ++
    steps 0 [.fanout .recv, .fanout .forward, .fanout .recv, .fanout .forward] ++
    steps 1 [.fanout .recv, .fanout .forward, .fanout .recv, .fanout .forward, .fanout .recv,
      .fanout .forward]

theorem ordered_delivery_bob : ∃ p : ServerState Ext.plain,
    p.shared.numbers 0 = [0, 1, 2] ∧ p.shared.numbers 1 = [0, 1, 2] ∧ OrderedDelivery p := by
  obtain ⟨p, hp, hc⟩ := play_check Config.plain (fun _ _ => true) bothPublish
    (fun p => p.shared.numbers 0 = [0, 1, 2] ∧ p.shared.numbers 1 = [0, 1, 2]) (by decide +kernel)
  obtain ⟨hbob, halice⟩ := of_decide_eq_true hc
  exact ⟨p, hbob, halice, ordered_delivery hp.toAlways⟩

end WsServer
