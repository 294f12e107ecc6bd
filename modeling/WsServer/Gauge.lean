import WsServer.Counters
import WsServer.Permits

/-! The gauge of active connections. `connection_accepted` and `connection_closed` stand at the two ends
    of `handle_socket`, and the second is not reached when `connection_loop` panics in between. It does
    so on two of the configured capacities, and on nothing else. The gauge of the source is this one as
    long as fewer than `2^64` connections are active. -/

namespace WsServer

open Lib

variable {E : Ext} {w : World E} {i : ℕ} {c : Session E} {r : World E × Session E} {config : Config}
  {p : ServerState E}

/-- `handle_socket` is running, past `connection_accepted`. -/
def Stage.inLoop : Stage → Bool
  | .accepted | .opened | .located | .subscribed | .numbered | .registered | .readied
  | .writerSpawned | .fanoutSpawned | .running | .selected _ | .joined | .matched _
  | .returned _ => true
  | _ => false

/-- `handle_socket` has come to its end, by return or by a panic. -/
def Stage.hasEnded : Stage → Bool
  | .closed _ | .panicked => true
  | _ => false

/-- The gauge is right: `accepted_connections` less `active_connections` are those that ended. -/
structure Gauge (p : ServerState E) : Prop where
  active : p.shared.app.metrics.activeConnections = p.count (·.stage.inLoop)
  ended : p.shared.app.metrics.acceptedConnections =
    p.shared.app.metrics.activeConnections + p.count (·.stage.hasEnded)

/-- Capacities that `mpsc::channel` and `broadcast::channel` take. -/
def Config.HasRoom (E : Ext) (config : Config) : Prop :=
  mpscPanics config.clientQueueCapacity = false ∧
    broadcastPanics E.slotSize config.topicChannelCapacity = false

theorem active_run {ok : ServerState E → ServerAct E → Prop} (h : Runs config ok p) :
    p.shared.app.metrics.activeConnections = p.total (·.stage.tally.1) ∧
      p.shared.app.metrics.acceptedConnections = p.total (·.stage.tally.2) := by
  have hpart : ∀ φ : ℕ × ℕ × ℕ →+ ℕ, (∀ d : Call E, φ (0, 0, d.pc.sent) = 0) →
      φ p.shared.flow = p.total fun c => φ c.flow := by
    intro φ hφ
    rw [flow_run h, ServerState.total, map_list_sum, List.map_map]
    refine congrArg (fun g => (p.threads.map g).sum) (funext fun l => ?_)
    cases l with
    | ws c => rfl
    | http d => exact hφ d
  exact ⟨hpart (.fst ℕ _) fun _ => rfl,
    hpart ((AddMonoidHom.fst ℕ _).comp (.snd ℕ _)) fun _ => rfl⟩

/-- Without a panic the gauge is right. -/
theorem gauge_of_no_panic {ok : ServerState E → ServerAct E → Prop} (h : Runs config ok p)
    (hno : ∀ i c, p.session i = some c → c.stage ≠ .panicked) : Gauge p := by
  obtain ⟨hactive, haccepted⟩ := active_run h
  have htally : ∀ s : Stage, s ≠ .panicked → s.tally.1 = s.inLoop.toNat ∧
      s.tally.2 = s.tally.1 + s.hasEnded.toNat := by
    intro s hs
    cases s <;> first | exact ⟨rfl, rfl⟩ | exact (hs rfl).elim
  refine ⟨?_, ?_⟩
  · rw [hactive]
    exact total_congr fun i c hc => (htally _ (hno i c hc)).1
  · rw [haccepted, hactive, ServerState.count, ← total_add]
    exact total_congr fun i c hc => (htally _ (hno i c hc)).2

/-- Only a set-up panics, and only on a capacity. -/
theorem no_panic_step {a : TaskAct} (hroom : w.app.config.HasRoom E) (hc : c.stage ≠ .panicked)
    (h : Session.step w i c a = some r) : r.2.stage ≠ .panicked := by
  cases a with
  | handshake b =>
    rcases Handshake.stage_step h with ⟨-, hs⟩ | ⟨hs, -⟩
    · intro he
      rw [he] at hs
      cases hs
    · rw [hs]; exact hc
  | setup b =>
    have h : Setup.step w i c b = some r := h
    cases b <;> simp only [Setup.step, Option.ite_none_right_eq_some, Option.some.injEq] at h <;>
      obtain ⟨-, rfl⟩ := h
    case openQueue =>
      simp [Setup.openQueue, hroom.1]
    case locate =>
      unfold Setup.locate
      split
      · rintro ⟨⟩
      · rename_i hnone
        simp only [World.topicSender, hroom.2] at hnone
        split at hnone <;> cases hnone
    case ready =>
      unfold Setup.ready
      split <;> rintro ⟨⟩
    all_goals rintro ⟨⟩
  | supervise b =>
    rcases supervise_rank h with ⟨-, hs⟩ | ⟨-, hs, -⟩
    · intro he
      rw [he] at hs
      simp [Stage.rank] at hs
    · rw [hs]; rintro ⟨⟩
  | writer b => rw [(Writer.step_framed h).stage]; exact hc
  | fanout b => rw [(Fanout.step_framed h).stage]; exact hc
  | reader b => rw [(Reader.step_framed h).kept.stage]; exact hc
  | call b => cases h

theorem no_panic_run {ok : ServerState E → ServerAct E → Prop} (hroom : config.HasRoom E)
    (h : Runs config ok p) {i : ℕ} {c : Session E} (hc : p.session i = some c) :
    c.stage ≠ .panicked := by
  refine (session_rule (J := fun _ _ => True) (K := fun _ _ c => c.stage ≠ .panicked) trivial
    (fun _ _ _ => trivial) (fun _ _ _ _ _ => nofun) ?_ (fun _ _ _ _ _ _ _ _ _ => trivial)
    (fun p _ _ _ _ _ j c _ hI _ _ _ hc _ => hI.session j c hc) (fun _ _ _ _ => trivial)
    (fun _ _ _ _ hK => hK) h).session i c hc
  intro p i c a r hr hI _ hc hs
  have hconfig : p.shared.app.config = config := (booked_run hr).shared.configured
  exact ⟨trivial, no_panic_step (by rw [hconfig]; exact hroom) (hI.session i c hc) hs⟩

/-! ### The result -/

/-- A connection whose set-up panics. -/
theorem panicked_run {now : ℕ} {ip : IpAddr} {query : WsQuery} (hin : LetsIn E config now ip query)
    (hroom : ¬ config.HasRoom E) : ∃ (w : World E) (c : Session E),
      Runs config always ⟨w, [.ws c]⟩ ∧ c.stage = .panicked := by
  obtain ⟨w, c, hrun, hst, -, hconfig, htopics⟩ := let_in hin
  have h₁ := run_only hrun trivial (a := .setup .accept) (by simp [Session.step, Setup.step, hst]; rfl)
  cases hq : mpscPanics config.clientQueueCapacity with
  | true =>
    refine ⟨_, _, run_only h₁ trivial (a := .setup .openQueue) rfl, ?_⟩
    simp [Setup.openQueue, Setup.accept, World.withMetrics, hconfig, hq]
  | false =>
    have htopic : broadcastPanics E.slotSize config.topicChannelCapacity = true := by
      cases hb : broadcastPanics E.slotSize config.topicChannelCapacity with
      | true => rfl
      | false => exact (hroom ⟨hq, hb⟩).elim
    have h₂ := run_only h₁ trivial (a := .setup .openQueue) rfl
    simp only [Setup.openQueue, Setup.accept, World.withMetrics, hconfig, hq] at h₂
    refine ⟨_, _, run_only h₂ trivial (a := .setup .locate) rfl, ?_⟩
    simp [Setup.locate, World.topicSender, World.setQueue, htopics, htopic]

/-- The gauge is right in every run if both capacities are in range, and only then. -/
theorem gauge_exact (E : Ext) (config : Config) :
    (config.HasRoom E → ∀ p : ServerState E, Runs config always p → Gauge p) ∧
      ∀ now ip query, LetsIn E config now ip query →
        (∀ p : ServerState E, Runs config always p → Gauge p) → config.HasRoom E := by
  refine ⟨fun hroom p h => gauge_of_no_panic h fun i c hc => no_panic_run hroom h hc, ?_⟩
  intro now ip query hin hgauge
  by_contra hroom
  obtain ⟨w, c, hrun, hst⟩ := panicked_run hin hroom
  have hactive := (hgauge _ hrun).active
  rw [(active_run hrun).1] at hactive
  simp [ServerState.total, ServerState.count, Task.account, hst, Stage.tally, Stage.inLoop] at hactive

/-- No room in the client queues. -/
def Config.noQueue : Config := { Config.plain with clientQueueCapacity := 0 }

theorem hasRoom_plain : Config.plain.HasRoom Ext.plain := ⟨rfl, by decide +kernel⟩

theorem gauge_exact_plain :
    (∀ p : ServerState Ext.plain, Runs Config.plain always p → Gauge p) ∧
      ¬ ∀ p : ServerState Ext.plain, Runs Config.noQueue always p → Gauge p := by
  refine ⟨(gauge_exact Ext.plain Config.plain).1 hasRoom_plain, fun hgauge => ?_⟩
  have hroom := (gauge_exact Ext.plain Config.noQueue).2 0 _ _
    (plain_letsIn rfl (by decide) rfl nofun) hgauge
  cases hroom.1

theorem gauge_leaks : ¬ ∀ (E : Ext) (config : Config) (p : ServerState E),
    Runs config always p → Gauge p := by
  intro hgauge
  have hin : LetsIn Ext.plain Config.noQueue 0 (.v4 1) ⟨"", none, none, none⟩ :=
    plain_letsIn rfl (by decide) rfl nofun
  obtain ⟨w, c, hrun, hst⟩ := panicked_run hin fun hroom => by cases hroom.1
  have hactive := (hgauge _ _ _ hrun).active
  rw [(active_run hrun).1] at hactive
  simp [ServerState.total, ServerState.count, Task.account, hst, Stage.tally, Stage.inLoop] at hactive

end WsServer
