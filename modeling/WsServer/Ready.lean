import WsServer.Clients

/-! The first message of a connection. From `register_client` on a connection can be addressed, but its
    `Ready` is put into the queue one step later, so a direct message may come before it, and may even
    take its place. Without a direct message in between, `Ready` is first and never dropped. -/

namespace WsServer

open Lib

variable {E : Ext} {w : World E} {i : ℕ} {c : Session E} {r : World E × Session E}

/-- The `Ready` of a connection. -/
def Session.IsReady (c : Session E) (x : Item E) : Prop :=
  ∃ encoded, encodeServerEvent (.ready (extractTopic c.topicKey) c.identity.clientId) = some encoded ∧
    x = ⟨.binary encoded, .ready⟩

/-- The first message ever placed in a queue is the `Ready` of its connection. -/
def ReadyFirst (p : ServerState E) : Prop :=
  ∀ i c x, p.session i = some c → (p.shared.queues i).placed.head? = some x → c.IsReady x

/-- A connection that is past `send_encoded` of its `Ready` has it in the queue. -/
def ReadyKept (p : ServerState E) : Prop :=
  ∀ i c, p.session i = some c → 7 ≤ c.stage.rank → ∃ x ∈ (p.shared.queues i).placed, c.IsReady x

/-- No direct message goes to a connection between its `register_client` and its `Ready`. -/
def directsApart (p : ServerState E) : ServerAct E → Bool
  | .run i a =>
    match p.threads[i]?.bind fun l => l.directTarget p.shared a with
    | some j =>
      match p.session j with
      | some c => !(c.stage = .registered)
      | none => true
    | none => true
  | _ => true

/-- The queue exists and `Ready` is still to come. -/
def Stage.isFresh : Stage → Bool
  | .opened | .located | .subscribed | .numbered | .registered => true
  | _ => false

/-- A queue is empty and open until its `Ready` comes, which is then first for good. -/
structure Readied (q : Queue (Item E)) (c : Session E) : Prop where
  empty : c.stage.rank < 7 → q.placed = []
  fresh : c.stage.isFresh = true → q.isOpen = true ∧ q.buf = [] ∧ 0 < q.cap
  ready : 7 ≤ c.stage.rank → ∃ x rest, q.placed = x :: rest ∧ c.IsReady x
  quit : c.phase = .quit → q.isOpen = false

theorem rank_of_isFresh {s : Stage} (h : s.isFresh = true) : s.rank < 7 := by
  cases s <;> first | (cases h; done) | simp [Stage.rank]

theorem phase_of_quit {s : Stage} (h : s.phase = .quit) : s = .returned false ∨ s = .closed false := by
  cases s with
  | returned b => cases b <;> first | (cases h; done) | exact Or.inl rfl
  | closed b => cases b <;> first | (cases h; done) | exact Or.inr rfl
  | _ => cases h

/-- Before the `Ready`. -/
theorem Readied.early {q : Queue (Item E)} {s : Stage} (hs : c.stage = s) (hrank : s.rank < 7)
    (hquit : s.phase ≠ .quit) (he : q.placed = [])
    (hf : s.isFresh = true → q.isOpen = true ∧ q.buf = [] ∧ 0 < q.cap) : Readied q c := by
  subst hs
  exact ⟨fun _ => he, hf, fun hk => absurd hrank (by omega), fun hp => absurd hp hquit⟩

/-- After the `Ready` only the end of the history moves. -/
theorem Readied.late {q q' : Queue (Item E)} {c' : Session E} (h : Readied q c)
    (hrank : 7 ≤ c.stage.rank) (hrank' : 7 ≤ c'.stage.rank) (hq : q.placed <+: q'.placed)
    (hc : c'.seat.topicKey = c.seat.topicKey) (hid : c'.identity = c.identity) : Readied q' c' := by
  refine ⟨fun hlt => absurd hlt (by omega), fun hf => ?_, fun _ => ?_, fun hp => ?_⟩
  · exact absurd (rank_of_isFresh hf) (by omega)
  · obtain ⟨x, rest, hx, hready⟩ := h.ready hrank
    obtain ⟨ext, he⟩ := hq
    refine ⟨x, rest ++ ext, by rw [← he, hx]; rfl, ?_⟩
    unfold Session.IsReady
    rw [show c'.topicKey = c.topicKey from hc, hid]
    exact hready
  · rcases phase_of_quit hp with hs | hs <;> rw [hs] at hrank' <;> simp [Stage.rank] at hrank'

theorem readied_setup {a : SetupAct} (h : Readied (w.queues i) c)
    (hs : Setup.step w i c a = some r) : Readied (r.1.queues i) r.2 := by
  have he := h.empty
  have hf := h.fresh
  cases a <;> simp only [Setup.step, Option.ite_none_right_eq_some, Option.some.injEq] at hs <;>
    obtain ⟨hst, rfl⟩ := hs <;> rw [hst] at he hf
  case accept =>
    exact .early (s := .accepted) rfl (by decide) (by decide) (he (by decide)) fun h => by cases h
  case openQueue =>
    simp only [Setup.openQueue]
    split
    · exact .early (s := .panicked) rfl (by decide) (by decide) (he (by decide)) fun h => by cases h
    · rename_i hcap
      simp only [mpscPanics, Bool.or_eq_true, decide_eq_true_eq, not_or] at hcap
      rw [World.queues_setQueue, Function.update_self]
      exact .early (s := .opened) rfl (by decide) (by decide) rfl
        fun _ => ⟨rfl, rfl, Nat.pos_of_ne_zero hcap.1⟩
  case locate =>
    unfold Setup.locate
    split
    · rename_i hl
      rw [World.queues_topicSender hl]
      exact .early (s := .located) rfl (by decide) (by decide) (he (by decide)) fun _ => hf rfl
    · rw [World.queues_closeQueue, Function.update_self]
      exact .early (s := .panicked) rfl (by decide) (by decide) (he (by decide)) fun h => by cases h
  case subscribe =>
    exact .early (s := .subscribed) rfl (by decide) (by decide) (he (by decide)) fun _ => hf rfl
  case number =>
    exact .early (s := .numbered) rfl (by decide) (by decide) (he (by decide)) fun _ => hf rfl
  case register =>
    exact .early (s := .registered) rfl (by decide) (by decide) (he (by decide)) fun _ => hf rfl
  case ready =>
    obtain ⟨hopen, hbuf, hcap⟩ := hf rfl
    unfold Setup.ready
    split
    · rename_i encoded henc
      rcases World.trySend_cases w i ⟨.binary encoded, .ready⟩ with ⟨q, hq, ht⟩ | ⟨hno, -⟩
      · have hplaced : ((w.sendEncoded i encoded .ready).2.queues i).placed =
            [⟨.binary encoded, .ready⟩] := by
          rw [World.queues_sendEncoded, ht, World.queues_setQueue, Function.update_self,
            (Queue.trySend_ok hq).2.2, he (by decide), List.nil_append]
        refine ⟨fun hk => absurd hk (Nat.lt_irrefl 7), by rintro ⟨⟩, fun _ => ?_, by rintro ⟨⟩⟩
        exact ⟨_, [], hplaced, encoded, henc, rfl⟩
      · obtain ⟨q, hq⟩ := (Queue.trySend_isOk (w.queues i) ⟨.binary encoded, .ready⟩).mpr
          ⟨hopen, by rw [hbuf]; exact hcap⟩
        exact absurd hq (hno q)
    · rw [World.queues_closeQueue, Function.update_self]
      exact ⟨fun _ => he (by decide), by rintro ⟨⟩,
        fun hk => absurd hk (Nat.not_le.mpr (Nat.lt_succ_self 6)),
        fun _ => rfl⟩
  case spawnWriter | spawnFanout | spawnReader =>
    exact h.late (by simp [hst, Stage.rank]) (by simp [Stage.rank]) (List.prefix_refl _) rfl rfl

/-- The own step of a connection. -/
theorem readied_own {a : TaskAct} (hc : c.Shaped) (h : Readied (w.queues i) c)
    (hs : Session.step w i c a = some r) : Readied (r.1.queues i) r.2 := by
  cases a with
  | handshake b =>
    have hf := Handshake.step_framed hs
    rw [hf.queues]
    rcases Handshake.stage_step hs with ⟨hb, hb'⟩ | ⟨hst, hid⟩
    · have h0 := rank_of_isHandshake hb
      have h0' := rank_of_isHandshake hb'
      refine ⟨fun _ => h.empty (by omega), fun hfr => ?_, fun hk => absurd hk (by omega), fun hp => ?_⟩
      · revert hb' hfr
        cases r.2.stage <;> simp [Stage.isHandshake, Stage.isFresh]
      · rw [show r.2.phase = .before from phase_of_isHandshake hb'] at hp; cases hp
    · have hkey : r.2.topicKey = c.topicKey := congrArg Seat.topicKey hf.seat
      refine ⟨?_, ?_, ?_, ?_⟩
      · rw [hst]; exact h.empty
      · rw [hst]; exact h.fresh
      · unfold Session.IsReady
        rw [hst, hkey, hid]
        exact h.ready
      · rw [Session.phase, hst]; exact h.quit
  | setup b => exact readied_setup h hs
  | writer b =>
    have hf := Writer.step_framed hs
    have hrank : 8 ≤ c.stage.rank := by
      by_contra hlt
      exact (writer_on hs).1 (hc.writer (by omega))
    exact h.late (by omega) (by rw [hf.stage]; omega) (by rw [hf.placed])
      (congrArg Seat.topicKey hf.seat) (congrArg Ticket.identity hf.ticket)
  | fanout b =>
    have hf := Fanout.step_framed hs
    have hrank : 9 ≤ c.stage.rank := by
      by_contra hlt
      exact (fanout_on hs).1 (hc.fanout (by omega))
    exact h.late (by omega) (by rw [hf.stage]; omega) hf.own.placed
      (congrArg Seat.topicKey hf.seat) (congrArg Ticket.identity hf.ticket)
  | reader b =>
    have hf := Reader.step_framed hs
    have hrank : 10 ≤ c.stage.rank := by
      by_contra hlt
      exact reader_on hs (hc.reader (by omega))
    exact h.late (by omega) (by rw [hf.kept.stage]; omega) (hf.queues i).placed
      (congrArg Seat.topicKey hf.kept.seat) (congrArg Ticket.identity hf.kept.ticket)
  | supervise b =>
    have hf := Supervise.step_framed hs
    rcases supervise_rank hs with ⟨h1, h2⟩ | ⟨h1, h2, hq, -⟩
    · exact h.late (by omega) (by omega) (by rw [hf.placed])
        (congrArg Seat.topicKey hf.seat) (congrArg Ticket.identity hf.ticket)
    · rw [hq]
      refine ⟨fun _ => h.empty (by simp [h1, Stage.rank]), fun hfr => ?_, fun hk => ?_, fun _ => ?_⟩
      · rw [h2] at hfr; cases hfr
      · rw [h2] at hk; exact absurd hk (by decide)
      · exact h.quit (by rw [Session.phase, h1]; rfl)
  | call b => cases hs

/-- A connection that an entry names has registered. -/
theorem target_phase {config : Config} {ok : ServerState E → ServerAct E → Prop} {p : ServerState E}
    (h : Runs config ok p) {l : Task E} {a : TaskAct} {j : ℕ}
    (ht : l.directTarget p.shared a = some j) :
    ∃ c, p.session j = some c ∧ c.phase.holds = true := by
  obtain ⟨key, handle, hl, rfl⟩ := directTarget_entry ht
  obtain ⟨c, hc, hp, -⟩ := entry_session h hl
  exact ⟨c, hc, hp⟩

theorem rank_of_holds {s : Stage} (h : s.phase.holds = true) :
    s = .registered ∨ 7 ≤ s.rank ∨ s.phase = .quit := by
  cases s with
  | registered => exact Or.inl rfl
  | returned b => cases b <;> first | (cases h; done) | exact Or.inr (Or.inr rfl)
  | closed b => cases b <;> first | (cases h; done) | exact Or.inr (Or.inr rfl)
  | readied | writerSpawned | fanoutSpawned | running | selected | joined | matched =>
    exact Or.inr (Or.inl (by simp [Stage.rank]))
  | _ => cases h

theorem readied_run {config : Config} {p : ServerState E}
    (h : Runs config (fun p a => directsApart p a = true) p) :
    Keeps (fun _ _ => True) (fun w i c => Readied (w.queues i) c) p := by
  refine session_rule trivial (fun _ _ _ => trivial) ?_ ?_ (fun _ _ _ _ _ _ _ _ _ => trivial) ?_
    (fun _ _ _ _ => trivial) (fun _ _ _ _ hK => hK) h
  · -- arrive
    rintro p ip query hr -
    rw [absent_run hr le_rfl]
    exact .early (s := .arrived) rfl (by decide) (by decide) rfl nofun
  · -- own
    rintro p i c a r hr hI - hc hs
    exact ⟨trivial, readied_own (shaped_run hr hc) (hI.session i c hc) hs⟩
  · -- other
    rintro p i l a w' l' j c hr hI hok hne hl hc hs
    have hK := hI.session j c hc
    have hgrew := queue_other hne hs
    have hplaced := hgrew.placed
    rcases hgrew with hq | ⟨x, ⟨ht, -⟩, hsend⟩
    · rw [hq]; exact hK
    · have hst : c.stage ≠ .registered := by
        simp only [directsApart, hl, Option.bind_some, ht, hc] at hok
        simpa using hok
      obtain ⟨d, hd, hp⟩ := target_phase hr ht
      rw [hc, Option.some.injEq] at hd
      subst hd
      rcases rank_of_holds hp with he | hrank | hquit
      · exact absurd he hst
      · exact hK.late hrank hrank hplaced rfl rfl
      · have hopen := (Queue.trySend_ok hsend).1
        rw [hK.quit hquit] at hopen; cases hopen

/-- As long as no direct message comes in between, `Ready` is first and is not dropped. -/
theorem ready_first {config : Config} {p : ServerState E}
    (h : Runs config (fun p a => directsApart p a = true) p) : ReadyFirst p ∧ ReadyKept p := by
  refine ⟨fun i c x hc hx => ?_, fun i c hc hrank => ?_⟩
  · have hK := (readied_run h).session i c hc
    by_cases hrank : c.stage.rank < 7
    · rw [hK.empty hrank] at hx; cases hx
    · obtain ⟨y, rest, hy, hready⟩ := hK.ready (by omega)
      rw [hy] at hx
      cases hx
      exact hready
  · obtain ⟨x, rest, hx, hready⟩ := ((readied_run h).session i c hc).ready hrank
    exact ⟨x, by rw [hx]; exact List.mem_cons_self, hready⟩

/-- Bob of the default tenant connects up to `register_client`, and `/api/direct` is called for him. -/
def bobAddressed : List (ServerAct Ext.plain) :=
  .spawn (.ws (.v4 1) ⟨"public", some "bob", none, none⟩) ::
    steps 0 (handshakeSteps ++ registerSteps) ++
    .spawn (.api none (.direct ⟨"bob", none, "hi"⟩)) :: steps 1 [.call .resolve]

/-- The direct message comes after `Ready`. -/
theorem ready_first_bob : ∃ p : ServerState Ext.plain,
    (p.shared.queues 0).placed.length = 2 ∧ ReadyFirst p ∧ ReadyKept p := by
  obtain ⟨p, hp, hc⟩ := play_check Config.plain directsApart
    (bobAddressed ++ steps 0 [.setup .ready] ++ steps 1 [.call .direct])
    (fun p => (p.shared.queues 0).placed.length = 2) (by decide +kernel)
  exact ⟨p, of_decide_eq_true hc, ready_first hp⟩

/-- With a queue for one message, a direct message before `Ready` is first and `Ready` is dropped. -/
theorem ready_not_first : ∃ p : ServerState Ext.plain,
    Runs { Config.plain with clientQueueCapacity := 1 } always p ∧ ¬ ReadyFirst p ∧ ¬ ReadyKept p := by
  obtain ⟨p, hp, hc⟩ := play_check { Config.plain with clientQueueCapacity := 1 } (fun _ _ => true)
    (bobAddressed ++ steps 1 [.call .direct] ++ steps 0 [.setup .ready])
    (fun (p : ServerState Ext.plain) => (ServerState.session p 0).any (fun c => 7 ≤ c.stage.rank) &&
      decide ((p.shared.queues 0).placed.length = 1) &&
      (p.shared.queues 0).placed.all fun x => decide (x.source ≠ .ready)) (by decide +kernel)
  simp only [Bool.and_eq_true, Option.any_eq_true, decide_eq_true_eq, List.all_eq_true] at hc
  obtain ⟨⟨⟨c, h0, hrank⟩, hone⟩, hother⟩ := hc
  obtain ⟨x, hx⟩ := List.length_eq_one_iff.mp hone
  have hsource : x.source ≠ .ready := hother x (by rw [hx]; exact List.mem_singleton_self x)
  refine ⟨p, hp.toAlways, fun hfirst => ?_, fun hkept => ?_⟩
  · obtain ⟨encoded, -, rfl⟩ := hfirst 0 c x h0 (by rw [hx]; rfl)
    exact hsource rfl
  · obtain ⟨y, hy, encoded, -, rfl⟩ := hkept 0 c h0 hrank
    rw [hx, List.mem_singleton] at hy
    subst hy
    exact hsource rfl

end WsServer
