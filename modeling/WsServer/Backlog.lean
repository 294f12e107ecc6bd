import WsServer.Accounts
import WsServer.Ordering
import WsServer.Socket

/-! How much the server holds back for slow clients. An open queue belongs to a connection that holds one of
    the permits, and has room for `client_queue_capacity` items; a closed one is empty. So all queues
    together never hold more than `max_connections` times `client_queue_capacity` items, whatever the
    clients send and however slowly they read. -/

namespace WsServer

open Lib

variable {E : Ext} {w : World E} {i j : ℕ} {c : Session E} {r : World E × Session E} {config : Config}
  {p : ServerState E}

/-! ### When a queue is open -/

/-- The queue of the connection was made, and its writer is not known to have ended. -/
def Stage.hasQueue : Stage → Bool
  | .opened | .located | .subscribed | .numbered | .registered | .readied | .writerSpawned | .fanoutSpawned
  | .running | .selected _ => true
  | _ => false

def WriterPc.isLive : WriterPc E → Bool
  | .spawned | .idle | .pinging | .writing _ => true
  | _ => false

def WriterPc.isGone : WriterPc E → Bool
  | .failed | .cancelled => true
  | _ => false

/-- The queue of a connection against its stage and its writer. -/
structure Lodged (config : Config) (q : Queue (Item E)) (c : Session E) : Prop where
  stage : q.isOpen = true → c.stage.hasQueue = true
  room : q.isOpen = true → q.cap = config.clientQueueCapacity ∧ 0 < q.cap
  fits : q.buf.length ≤ q.cap
  made : c.writer = .off → c.stage.hasQueue = true → q.isOpen = true
  live : c.writer.isLive = true → q.isOpen = true
  gone : c.writer.isGone = true → q.isOpen = false
  /-- The supervisor was woken by a writer that has ended. -/
  woken : c.stage = .selected .writer → c.writer.isGone = true

theorem Lodged.push {q q' : Queue (Item E)} {x : Item E} (h : Lodged config q c) (hq : q.trySend x = .ok q') :
    Lodged config q' c := by
  obtain ⟨ho, hlt, rfl⟩ := Queue.trySend_ok hq
  refine ⟨h.stage, h.room, ?_, h.made, h.live, h.gone, h.woken⟩
  simp only [List.length_append, List.length_singleton]
  omega

theorem Lodged.grew {w' : World E} {P : Item E → Prop} (h : Lodged config (w.queues i) c)
    (hg : World.Grew w w' i P) : Lodged config (w'.queues i) c := by
  rcases hg with hq | ⟨x, -, hq⟩
  · rw [hq]
    exact h
  · exact h.push hq

/-- A step that leaves queue and writer alone. -/
theorem Lodged.still {q : Queue (Item E)} {c' : Session E} (h : Lodged config q c)
    (hwriter : c'.writer = c.writer) (hstage : c.stage.hasQueue = true ↔ c'.stage.hasQueue = true)
    (hwoken : c'.stage = .selected .writer → c.writer.isGone = true) : Lodged config q c' := by
  refine ⟨fun ho => hstage.mp (h.stage ho), h.room, h.fits, ?_, ?_, ?_, ?_⟩
  · rw [hwriter]
    exact fun hoff hhas => h.made hoff (hstage.mpr hhas)
  · rw [hwriter]
    exact h.live
  · rw [hwriter]
    exact h.gone
  · rw [hwriter]
    exact hwoken

/-- The queue is closed with its writer. -/
theorem Lodged.close {q : Queue (Item E)} {c' : Session E} (hlive : c'.writer.isLive = false)
    (hmade : c'.writer = .off → c'.stage.hasQueue = false)
    (hwoken : c'.stage = .selected .writer → c'.writer.isGone = true) : Lodged config q.close c' := by
  refine ⟨?_, ?_, Nat.zero_le _, ?_, ?_, fun _ => rfl, hwoken⟩
  · rintro ⟨⟩
  · rintro ⟨⟩
  · intro hoff hhas
    rw [hmade hoff] at hhas
    cases hhas
  · rw [hlive]
    rintro ⟨⟩

theorem lodged_setup {a : SetupAct} (hc : c.Shaped) (hconfig : w.app.config = config)
    (h : Lodged config (w.queues i) c) (hs : Setup.step w i c a = some r) :
    Lodged config (r.1.queues i) r.2 := by
  have hw := hc.writer
  have hstill : ∀ {c' : Session E}, c'.writer = c.writer → c.stage.hasQueue = c'.stage.hasQueue →
      c'.stage ≠ .selected .writer → Lodged config (w.queues i) c' := by
    intro c' hwriter hsame hne
    exact h.still hwriter (by rw [hsame]) fun he => absurd he hne
  cases a <;> simp only [Setup.step, Option.ite_none_right_eq_some, Option.some.injEq] at hs <;>
    obtain ⟨hst, rfl⟩ := hs <;> rw [hst] at hw
  case accept => exact hstill rfl (by rw [hst]; rfl) (by rintro ⟨⟩)
  case openQueue =>
    have hoff := hw (by decide)
    simp only [Setup.openQueue]
    split
    · exact hstill rfl (by rw [hst]; rfl) (by rintro ⟨⟩)
    · rename_i hcap
      simp only [mpscPanics, Bool.or_eq_true, decide_eq_true_eq, not_or] at hcap
      rw [World.queues_setQueue, Function.update_self]
      refine ⟨fun _ => rfl, fun _ => ⟨by rw [← hconfig]; rfl, Nat.pos_of_ne_zero hcap.1⟩, Nat.zero_le _,
        fun _ _ => rfl, fun _ => rfl, ?_, by rintro ⟨⟩⟩
      simp only [hoff]
      rintro ⟨⟩
  case locate =>
    unfold Setup.locate
    split
    · rename_i hl
      rw [World.queues_topicSender hl]
      exact hstill rfl (by rw [hst]; rfl) (by rintro ⟨⟩)
    · rw [World.queues_closeQueue, Function.update_self]
      exact .close (by simp only [hw (by decide)]; rfl) (fun _ => rfl) (by rintro ⟨⟩)
  case ready =>
    unfold Setup.ready
    split
    · rename_i encoded _
      have hgrew := (World.grew_trySend w i ⟨.binary encoded, .ready⟩ i).congr
        (World.queues_sendEncoded w i encoded .ready)
      exact (h.grew hgrew).still rfl (by rw [hst]; exact Iff.rfl) (by rintro ⟨⟩)
    · rw [World.queues_closeQueue, Function.update_self]
      exact .close (by simp only [hw (by decide)]; rfl) (fun _ => rfl) (by rintro ⟨⟩)
  case spawnWriter =>
    have hopen : (w.queues i).isOpen = true := h.made (hw (by decide)) (by rw [hst]; rfl)
    exact ⟨fun _ => rfl, h.room, h.fits, by rintro ⟨⟩, fun _ => hopen, by rintro ⟨⟩, by rintro ⟨⟩⟩
  case subscribe | number | register | spawnFanout | spawnReader =>
    exact hstill rfl (by rw [hst]; rfl) (by rintro ⟨⟩)

theorem lodged_writer {a : WriterAct} (h : Lodged config (w.queues i) c) (hs : Writer.step w i c a = some r) :
    Lodged config (r.1.queues i) r.2 := by
  have hclose : ∀ {c' : Session E}, c'.writer = .failed → Lodged config (w.queues i).close c' := by
    intro c' hfailed
    refine .close (by rw [hfailed]; rfl) ?_ (fun _ => by rw [hfailed]; rfl)
    rw [hfailed]
    rintro ⟨⟩
  -- a writer that goes on has an open queue
  have hlive : ∀ {q : Queue (Item E)} {c' : Session E}, c.writer.isLive = true →
      q.isOpen = (w.queues i).isOpen → q.cap = (w.queues i).cap →
      q.buf.length ≤ (w.queues i).buf.length → c'.stage = c.stage → c'.writer.isLive = true →
      Lodged config q c' := by
    intro q c' hbefore hopen hcap hlen hstage hafter
    have ho := h.live hbefore
    have hfits := h.fits
    have hgone : c'.writer.isGone = false := by
      revert hafter
      cases c'.writer <;> first | (rintro ⟨⟩; done) | exact fun _ => rfl
    refine ⟨fun _ => by rw [hstage]; exact h.stage ho, fun _ => by rw [hcap]; exact h.room ho,
      by omega, fun _ _ => hopen.trans ho, fun _ => hopen.trans ho, ?_, ?_⟩
    · rw [hgone]
      rintro ⟨⟩
    · intro hsel
      rw [hstage] at hsel
      have hw := h.gone (h.woken hsel)
      rw [ho] at hw
      cases hw
  cases a with
  | start =>
    simp only [Writer.step] at hs
    split at hs <;> cases hs
    rename_i hw
    simp only [Writer.start]
    split
    · rw [World.queues_closeQueue, Function.update_self]
      exact hclose rfl
    · exact hlive (by rw [hw]; rfl) rfl rfl (Nat.le_refl _) rfl rfl
  | beat =>
    simp only [Writer.step] at hs
    split at hs
    · rename_i hw
      split at hs <;> cases hs
      exact hlive (by rw [hw]; rfl) rfl rfl (Nat.le_refl _) rfl rfl
    · cases hs
  | pinged succeeds =>
    simp only [Writer.step] at hs
    split at hs <;> cases hs
    rename_i hw
    cases succeeds with
    | false =>
      rw [show (Writer.pinged w i c false).1.queues i = (w.queues i).close by simp [Writer.pinged]]
      exact hclose rfl
    | true => exact hlive (by rw [hw]; rfl) rfl rfl (Nat.le_refl _) rfl rfl
  | pop =>
    simp only [Writer.step] at hs
    split at hs
    · rename_i hw
      rw [Option.map_eq_some_iff] at hs
      obtain ⟨⟨x, q⟩, hq, rfl⟩ := hs
      rw [World.queues_setQueue, Function.update_self]
      obtain ⟨hbuf, hsame⟩ := Queue.recv_some hq
      refine hlive (by rw [hw]; rfl) ?_ ?_ ?_ rfl rfl
      · rw [hsame]
      · rw [hsame]
      · rw [hbuf]
        exact Nat.le_succ _
    · cases hs
  | wrote succeeds =>
    simp only [Writer.step] at hs
    split at hs <;> cases hs
    rename_i x hw
    cases succeeds with
    | false =>
      rw [show (Writer.wrote w i c x false).1.queues i = (w.queues i).close by simp [Writer.wrote]]
      exact hclose rfl
    | true => exact hlive (by rw [hw]; rfl) rfl rfl (Nat.le_refl _) rfl rfl

theorem gone_of_ended (h : (c.hasEnded .writer || c.isCancelled .writer) = true) :
    c.writer.isGone = true := by
  revert h
  unfold Session.hasEnded Session.isCancelled
  cases c.writer <;> first | (rintro ⟨⟩; done) | exact fun _ => rfl

theorem lodged_supervise {a : SuperviseAct} (h : Lodged config (w.queues i) c)
    (hs : Supervise.step w i c a = some r) : Lodged config (r.1.queues i) r.2 := by
  cases a with
  | select t =>
    simp only [Supervise.step, Option.ite_none_right_eq_some, Option.some.injEq] at hs
    obtain ⟨⟨hst, hended⟩, rfl⟩ := hs
    refine h.still rfl (by rw [hst]; exact Iff.rfl) ?_
    rintro ⟨⟩
    exact gone_of_ended (by rw [hended]; rfl)
  | cancel t =>
    simp only [Supervise.step] at hs
    split at hs
    · split at hs
      · cases t with
        | writer =>
          simp only [Supervise.cancel] at hs
          split at hs <;> cases hs <;> rw [World.queues_closeQueue, Function.update_self] <;>
            exact .close rfl (by rintro ⟨⟩) (fun _ => rfl)
        | reader =>
          simp only [Supervise.cancel] at hs
          split at hs <;> cases hs <;> exact h.still rfl Iff.rfl h.woken
        | fanout =>
          simp only [Supervise.cancel] at hs
          split at hs <;> cases hs
          exact h.still rfl Iff.rfl h.woken
      · cases hs
    · cases hs
  | join =>
    simp only [Supervise.step] at hs
    split at hs
    · rename_i first hst
      split at hs <;> cases hs
      rename_i hall
      have hgone : c.writer.isGone = true := by
        cases first with
        | writer => exact h.woken hst
        | reader | fanout =>
          refine gone_of_ended (List.all_eq_true.mp hall .writer ?_)
          simp [ConnectionTask.others]
      have hclosed := h.gone hgone
      refine ⟨?_, ?_, h.fits, ?_, h.live, fun _ => hclosed, by rintro ⟨⟩⟩
      · rw [hclosed]
        rintro ⟨⟩
      · rw [hclosed]
        rintro ⟨⟩
      · rintro _ ⟨⟩
    · cases hs
  | unregisterGet =>
    simp only [Supervise.step, Option.ite_none_right_eq_some, Option.some.injEq] at hs
    obtain ⟨hst, rfl⟩ := hs
    exact h.still rfl (by rw [hst]; exact Iff.rfl) (by rintro ⟨⟩)
  | unregisterRemove =>
    simp only [Supervise.step] at hs
    split at hs <;> cases hs
    rename_i own hst
    have hq : (Supervise.unregisterRemove w c own).1.queues = w.queues := by cases own <;> rfl
    rw [hq]
    exact h.still rfl (by rw [hst]; exact Iff.rfl) (by rintro ⟨⟩)
  | close =>
    simp only [Supervise.step] at hs
    split at hs <;> cases hs
    rename_i hst
    refine h.still rfl ?_ (by rintro ⟨⟩)
    rw [hst]
    exact Iff.rfl

theorem lodged_run {ok : ServerState E → ServerAct E → Prop} (h : Runs config ok p)
    (hc : p.session i = some c) : Lodged config (p.shared.queues i) c := by
  refine (session_rule (J := fun _ _ => True) (K := fun w i c => Lodged config (w.queues i) c) trivial
    (fun _ _ _ => trivial) ?_ ?_ (fun _ _ _ _ _ _ _ _ _ => trivial) ?_ (fun _ _ _ _ => trivial)
    (fun _ _ _ _ hK => hK) h).session i c hc
  · intro p ip query hr _
    rw [absent_run hr le_rfl]
    exact ⟨by rintro ⟨⟩, by rintro ⟨⟩, Nat.zero_le _, by rintro _ ⟨⟩, by rintro ⟨⟩, fun _ => rfl,
      by rintro ⟨⟩⟩
  · intro p i c a r hr hI _ hc hs
    refine ⟨trivial, ?_⟩
    have hK := hI.session i c hc
    cases a with
    | handshake b =>
      have hf := Handshake.step_framed hs
      rw [hf.queues]
      rcases Handshake.stage_step hs with ⟨hb, hb'⟩ | ⟨hsame, -⟩
      · refine hK.still hf.writer ?_ ?_
        · revert hb hb'
          cases c.stage <;> cases r.2.stage <;> simp [Stage.isHandshake, Stage.hasQueue]
        · intro hsel
          rw [hsel] at hb'
          cases hb'
      · exact hK.still hf.writer (by rw [hsame]) (by rw [hsame]; exact hK.woken)
    | setup b =>
      exact lodged_setup (shaped_run hr hc) (booked_run hr).shared.configured hK hs
    | writer b => exact lodged_writer hK hs
    | fanout b =>
      have hf := Fanout.step_framed hs
      exact (hK.grew hf.own).still hf.writer (by rw [hf.stage]) (by rw [hf.stage]; exact hK.woken)
    | reader b =>
      have hf := Reader.step_framed hs
      exact (hK.grew (hf.queues i)).still hf.kept.writer (by rw [hf.kept.stage])
        (by rw [hf.kept.stage]; exact hK.woken)
    | supervise b => exact lodged_supervise hK hs
    | call b => cases hs
  · intro p i l a w' l' j c hr hI _ hne hl hc hs
    exact (hI.session j c hc).grew (queue_other hne hs)

/-! ### What all queues hold -/

/-- An open queue belongs to a connection with a permit. -/
theorem permit_of_open (h : Runs config always p) (hc : p.session i = some c)
    (hopen : (p.shared.queues i).isOpen = true) : c.permit = true := by
  have hstage := (lodged_run h hc).stage hopen
  have hexact := ((booked_run h).session i c hc).exact
  revert hstage hexact
  cases hst : c.stage <;> first | (rintro ⟨⟩; done) | (
    intro _ hexact
    exact congrArg Permits.server (hexact (by rfl)))

/-- Calls have no queues. -/
theorem call_queue {ok : ServerState E → ServerAct E → Prop} (h : Runs config ok p) {d : Call E}
    (hd : p.call i = some d) : p.shared.queues i = Queue.absent := by
  refine (Prog.rely_guarantee (J := fun _ _ => True)
    (K := fun (w : World E) i l => ∀ d, l = Task.http d → w.queues i = Queue.absent)
    ⟨trivial, fun i l hl => by simp [boot] at hl⟩ ?_ ?_ ?_ ?_ h).each i _ (call_eq_some.mp hd) d rfl
  · intro p request hr _
    exact ⟨trivial, fun d _ => absent_run hr le_rfl⟩
  · intro p i l a w' l' _ hI _ hl (hs : Task.step p.shared i l a = some (w', l'))
    refine ⟨trivial, ?_⟩
    rintro d' rfl
    cases l with
    | ws c =>
      obtain ⟨c', hc, -⟩ := step_ws hs
      cases hc
    | http d =>
      obtain ⟨d'', b, -, rfl, hstep⟩ := step_http hs
      exact absent_grew ((Api.step_framed hstep).queues i) (hI.each i _ hl d rfl)
  · intro p i l a w' l' j m _ hI _ hne _ hm (hs : Task.step p.shared i l a = some (w', l')) d hd
    exact absent_grew (queue_other hne hs) (hI.each j m hm d hd)
  · intro p e w' hI he
    cases he
    exact ⟨trivial, hI.each⟩

/-- How many items wait in the queues of all connections. -/
def ServerState.backlog (p : ServerState E) : ℕ :=
  ((List.range p.threads.length).map fun i => (p.shared.queues i).buf.length).sum

/-- A queue holds at most its capacity, and only for a connection with a permit. -/
theorem buf_le (h : Runs config always p) {l : Task E} (hl : p.threads[i]? = some l) :
    (p.shared.queues i).buf.length ≤
      l.account (fun c => config.clientQueueCapacity * c.permit.toNat) := by
  cases l with
  | http d =>
    rw [call_queue h (call_eq_some.mpr hl)]
    exact Nat.zero_le _
  | ws c =>
    have hc := session_eq_some.mpr hl
    have hlodged := lodged_run h hc
    cases hopen : (p.shared.queues i).isOpen with
    | false =>
      rw [(piped_run h hc).closed hopen]
      exact Nat.zero_le _
    | true =>
      have hfits := hlodged.fits
      rw [(hlodged.room hopen).1] at hfits
      simpa [Task.account, permit_of_open h hc hopen] using hfits

/-- Whatever the clients do, the queues hold no more than there is room for: each its capacity, and all of
    them together what that is for `max_connections` connections. -/
theorem bounded (h : Runs config always p) :
    (∀ i, (p.shared.queues i).buf.length ≤ config.clientQueueCapacity) ∧
      p.backlog ≤ config.maxConnections * config.clientQueueCapacity := by
  refine ⟨?_, ?_⟩
  · intro i
    cases hget : p.threads[i]? with
    | none =>
      rw [absent_run h (List.getElem?_eq_none_iff.mp hget)]
      exact Nat.zero_le _
    | some l =>
      refine (buf_le h hget).trans ?_
      cases l with
      | http d => exact Nat.zero_le _
      | ws c => cases hpermit : c.permit <;> simp [Task.account, hpermit]
  · have hsum : p.backlog ≤ p.total fun c => config.clientQueueCapacity * c.permit.toNat := by
      refine List.Forall₂.sum_le_sum ?_
      rw [List.forall₂_iff_get]
      refine ⟨by simp, ?_⟩
      intro k hk hk'
      have hlt : k < p.threads.length := by simpa using hk
      simpa using buf_le h (List.getElem?_eq_getElem hlt)
    have htotal : p.total (fun c => config.clientQueueCapacity * c.permit.toNat) =
        config.clientQueueCapacity * p.count (·.permit) :=
      (total_map (AddMonoidHom.mulLeft config.clientQueueCapacity) p fun c => c.permit.toNat).symm
    have hcap := server_run h
    calc p.backlog ≤ config.clientQueueCapacity * p.count (·.permit) := htotal ▸ hsum
      _ ≤ config.clientQueueCapacity * config.maxConnections := Nat.mul_le_mul_left _ (by omega)
      _ = config.maxConnections * config.clientQueueCapacity := Nat.mul_comm _ _

/-- Two connections that listen on one topic; the second one publishes, and neither has been written to. -/
theorem bounded_two : ∃ p : ServerState Ext.plain, p.backlog = 3 ∧
    (∀ i, (p.shared.queues i).buf.length ≤ 16) ∧ p.backlog ≤ 10 * 16 := by
  obtain ⟨p, hp, hcheck⟩ := play_check Config.plain (fun _ _ => true) aliceToBob
    (fun (p : ServerState Ext.plain) => decide (p.backlog = 3)) (by decide +kernel)
  obtain ⟨heach, hall⟩ := bounded hp.toAlways
  exact ⟨p, of_decide_eq_true hcheck, heach, hall⟩

end WsServer
