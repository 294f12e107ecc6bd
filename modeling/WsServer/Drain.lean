import WsServer.Gauge
import WsServer.Accounts
import WsServer.Lib.Descent

/-! No request waits for another one. When its client leaves, a connection is over and gone after a bounded
    number of its own steps, from every reachable state and without time passing; a call answers after
    three. `left` counts the steps that are left to do, and in every state where it is not zero one of
    them is enabled. -/

namespace WsServer

open Lib

variable {E : Ext} {w : World E} {i : ℕ} {c : Session E} {r : World E × Session E} {config : Config}
  {p : ServerState E}

/-! ### What is left to do -/

def ReaderPc.left : ReaderPc E → ℕ
  | .off | .cancelled | .ended _ => 0
  | .limitedClose _ => 1
  | .limited => 2
  | .idle => 3
  | .spawned | .replying _ | .sending .. => 4
  | .publishing .. | .directing .. => 5
  | .checking _ => 6

def WriterPc.left : WriterPc E → ℕ
  | .off | .failed | .cancelled => 0
  | _ => 1

def FanoutPc.left : FanoutPc E → ℕ
  | .off | .stopped _ | .cancelled => 0
  | .waiting => 1
  | .holding _ => 2

def Stage.left : Stage → ℕ
  | .refused _ | .upgradeFailed | .closed _ | .panicked => 0
  | .counted _ | .returned _ => 1
  | .refusing _ | .matched _ => 2
  | .joined => 3
  | .selected _ => 4
  | .running => 5
  | .fanoutSpawned => 10
  | .writerSpawned => 12
  | .readied => 14
  | .registered => 15
  | .numbered => 16
  | .subscribed => 17
  | .located => 18
  | .opened => 19
  | .accepted => 20
  | .upgraded => 21
  | .admitted => 22
  | .authenticated => 24
  | .permitted => 25
  | .ipAdmitted => 27
  | .arrived => 29

/-- The tasks of `connection_loop` matter from the first spawn to the join. -/
def Stage.hasTasks : Stage → Bool
  | .writerSpawned | .fanoutSpawned | .running | .selected _ => true
  | _ => false

def Session.tasksLeft (c : Session E) : ℕ :=
  if c.stage.hasTasks then c.reader.left + c.writer.left + c.fanout.left else 0

def Session.permitsLeft (c : Session E) : ℕ := c.ipPermit.toNat + c.permit.toNat + c.tenantPermit.toNat

/-- The steps that are left at most when the client leaves. -/
def Session.left (c : Session E) : ℕ := c.stage.left + c.tasksLeft + c.permitsLeft

def CallPc.left : CallPc E → ℕ
  | .done _ | .panicked => 0
  | .sending .. | .directing .. => 1
  | .publishing .. => 2
  | .arrived => 3

def Task.left : Task E → ℕ
  | .ws c => c.left
  | .http d => d.pc.left

/-- The client sends nothing but a close, and a handshake that comes to the upgrade fails there. -/
def leaving : TaskAct → Bool
  | .handshake (.upgrade succeeds) => !succeeds
  | .reader (.frame .close) => true
  | .reader (.frame _) => false
  | _ => true

theorem left_le (c : Session E) : c.left ≤ 41 := by
  have hstage : c.stage.left ≤ 29 := by cases c.stage <;> simp [Stage.left]
  have hreader : c.reader.left ≤ 6 := by cases c.reader <;> simp [ReaderPc.left]
  have hwriter : c.writer.left ≤ 1 := by cases c.writer <;> simp [WriterPc.left]
  have hfanout : c.fanout.left ≤ 2 := by cases c.fanout <;> simp [FanoutPc.left]
  have hip := Bool.toNat_le c.ipPermit
  have hserver := Bool.toNat_le c.permit
  have htenant := Bool.toNat_le c.tenantPermit
  have htasks : c.tasksLeft ≤ 9 := by
    rw [Session.tasksLeft]
    split <;> omega
  simp only [Session.left, Session.permitsLeft]
  omega

theorem isGone_of_left (h : c.left = 0) : c.isGone = true := by
  simp only [Session.left, Session.permitsLeft, Nat.add_eq_zero_iff, Bool.toNat_eq_zero] at h
  obtain ⟨⟨hstage, -⟩, ⟨hip, hserver⟩, htenant⟩ := h
  have hover : c.stage.isOver = true := by
    cases hs : c.stage <;> rw [hs] at hstage <;> first | rfl | cases hstage
  simp [Session.isGone, hover, Ticket.held, Session.ticket, hip, hserver, htenant, Permits.none]

/-! ### What the reader can do -/

/-- The reader was spawned and is not cancelled. -/
def ReaderPc.isUp : ReaderPc E → Bool
  | .off | .cancelled => false
  | _ => true

/-- A reader that is up and has at most `n` steps left. -/
structure ReaderPc.Within (n : ℕ) (pc : ReaderPc E) : Prop where
  up : pc.isUp = true
  left : pc.left ≤ n

theorem ReaderPc.Within.on {n : ℕ} {pc : ReaderPc E} (h : pc.Within n) : pc ≠ .off := by
  rintro rfl
  cases h.up

theorem ReaderPc.Within.uncancelled {n : ℕ} {pc : ReaderPc E} (h : pc.Within n) : pc ≠ .cancelled := by
  rintro rfl
  cases h.up

theorem within_sendError (c : Session E) (now : ℕ) (code message : String) :
    (c.sendError now code message).reader.Within 4 := by
  unfold Session.sendError
  split
  · exact ⟨rfl, Nat.le_refl 4⟩
  · exact ⟨rfl, Nat.le_succ 3⟩

theorem ReaderPc.Within.mono {m n : ℕ} {pc : ReaderPc E} (h : pc.Within m) (hle : m ≤ n) : pc.Within n :=
  ⟨h.up, h.left.trans hle⟩

theorem within_handleClientEvent (event : ClientEvent E.Value) :
    (Reader.handleClientEvent w c event).2.reader.Within 5 := by
  cases event with
  | publish topic requestId payload =>
    simp only [Reader.handleClientEvent]
    split
    · exact ⟨rfl, Nat.le_refl 5⟩
    · exact (within_sendError ..).mono (by decide)
  | direct target requestId payload =>
    simp only [Reader.handleClientEvent]
    split
    · exact ⟨rfl, Nat.le_refl 5⟩
    · exact (within_sendError ..).mono (by decide)
  | ping requestId payload =>
    simp only [Reader.handleClientEvent]
    split
    · exact ⟨rfl, Nat.le_succ 4⟩
    · exact (within_sendError ..).mono (by decide)

theorem within_handle (frame : Inbound) : (Reader.handle w c frame).2.reader.Within 5 := by
  cases frame <;> simp only [Reader.handle] <;> split
  · exact within_handleClientEvent _
  · exact (within_sendError ..).mono (by decide)
  · exact within_handleClientEvent _
  · exact (within_sendError ..).mono (by decide)

theorem within_gate (tooLarge : Bool) (frame : Inbound) :
    (Reader.gate w c tooLarge frame).2.reader.Within 6 := by
  simp only [Reader.gate]
  split
  · exact ⟨rfl, Nat.le_add_left 2 4⟩
  · split
    · exact (within_sendError ..).mono (by decide)
    · exact ⟨rfl, Nat.le_refl 6⟩

/-- What a step of a reader that had `n` steps left leaves at most. -/
def ReaderAct.leaves (n : ℕ) : ReaderAct → ℕ
  | .frame .close => 2
  | .frame _ => 6
  | _ => n - 1

/-- A reader that stepped is on, and unless it took a frame it has less to do. -/
theorem reader_moves {a : ReaderAct} (h : Reader.step w i c a = some r) :
    r.2.reader.Within (a.leaves c.reader.left) := by
  cases a with
  | frame f =>
    simp only [Reader.step] at h
    split at h <;> cases h
    cases f with
    | text t => exact within_gate _ _
    | binary raw => exact within_gate _ _
    | ping payload | pong => exact ⟨rfl, Nat.le_add_left 3 3⟩
    | close | eof | failure => exact ⟨rfl, Nat.zero_le _⟩
  | tenantRate =>
    simp only [Reader.step] at h
    split at h <;> cases h
    rename_i f hr
    rw [hr]
    simp only [Reader.tenantRate]
    split
    · exact (within_sendError ..).mono (Nat.le_succ 4)
    · exact within_handle f
  | locate =>
    simp only [Reader.step] at h
    split at h <;> cases h
    rename_i hr
    rw [hr]
    unfold Reader.locate
    split
    · exact ⟨rfl, Nat.le_refl 4⟩
    · exact ⟨rfl, Nat.zero_le _⟩
  | direct =>
    simp only [Reader.step] at h
    split at h <;> cases h
    rename_i hr
    rw [hr]
    simp only [Reader.direct]
    split
    · exact within_sendError ..
    · exact ⟨rfl, Nat.le_succ 3⟩
  | limitError =>
    simp only [Reader.step] at h
    split at h <;> cases h
    rename_i hr
    rw [hr]
    simp only [Reader.limitError]
    split <;> exact ⟨rfl, Nat.le_refl 1⟩
  | start | send | reply =>
    simp only [Reader.step] at h
    split at h <;> cases h
    rename_i hr
    rw [hr]
    exact ⟨rfl, Nat.le_refl 3⟩
  | limitClose =>
    simp only [Reader.step] at h
    split at h <;> cases h
    exact ⟨rfl, Nat.zero_le _⟩
  | idleTimeout =>
    simp only [Reader.step] at h
    split at h
    · split at h <;> cases h
      exact ⟨rfl, Nat.zero_le _⟩
    · cases h

/-! ### Tasks that are there -/

/-- A task that was spawned stays on, and the reader is not cancelled before a task has ended. -/
structure Session.Manned (c : Session E) : Prop where
  writer : 8 ≤ c.stage.rank → c.writer ≠ .off
  fanout : 9 ≤ c.stage.rank → c.fanout ≠ .off
  reader : 10 ≤ c.stage.rank → c.reader ≠ .off
  running : c.stage.rank ≤ 10 → c.reader ≠ .cancelled

theorem Session.Manned.early {c : Session E} (hrank : c.stage.rank < 8) (h : c.reader ≠ .cancelled) :
    c.Manned := ⟨fun h8 => by omega, fun h9 => by omega, fun h10 => by omega, fun _ => h⟩

theorem manned_setup {a : SetupAct} (hc : c.Manned) (h : Setup.step w i c a = some r) :
    r.2.Manned := by
  have hw := hc.writer
  have hf := hc.fanout
  have hrun := hc.running
  cases a <;> simp only [Setup.step, Option.ite_none_right_eq_some, Option.some.injEq] at h <;>
    obtain ⟨hs, rfl⟩ := h <;> rw [hs] at hw hf hrun
  case openQueue =>
    simp only [Setup.openQueue]
    split <;> exact .early (by simp [Stage.rank]) (hrun (by decide))
  case locate =>
    unfold Setup.locate
    split <;> exact .early (by simp [Stage.rank]) (hrun (by decide))
  case ready =>
    unfold Setup.ready
    split <;> exact .early (by simp [Stage.rank]) (hrun (by decide))
  case spawnWriter =>
    exact ⟨fun _ => by rintro ⟨⟩, fun h => absurd h (by simp [Stage.rank]),
      fun h => absurd h (by simp [Stage.rank]), fun _ => hrun (by decide)⟩
  case spawnFanout =>
    exact ⟨fun _ => hw (by decide), fun _ => by rintro ⟨⟩, fun h => absurd h (by simp [Stage.rank]),
      fun _ => hrun (by decide)⟩
  case spawnReader =>
    exact ⟨fun _ => hw (by decide), fun _ => hf (by decide), fun _ => by rintro ⟨⟩, fun _ => by rintro ⟨⟩⟩
  all_goals
    exact .early (by simp [Setup.accept, Setup.subscribe, Setup.number, Setup.register, Stage.rank])
      (hrun (by decide))

/-- A supervisor never leads back to `running`. -/
theorem supervise_left_running {a : SuperviseAct} (h : Supervise.step w i c a = some r) :
    r.2.stage ≠ .running := by
  cases a with
  | select t =>
    simp only [Supervise.step, Option.ite_none_right_eq_some, Option.some.injEq] at h
    obtain ⟨-, rfl⟩ := h
    rintro ⟨⟩
  | cancel t =>
    simp only [Supervise.step] at h
    split at h
    · rename_i hs
      split at h
      · rw [(Supervise.cancel_spec h).2.2, hs]
        rintro ⟨⟩
      · cases h
    · cases h
  | join =>
    simp only [Supervise.step] at h
    split at h
    · split at h <;> cases h
      rintro ⟨⟩
    · cases h
  | unregisterGet =>
    simp only [Supervise.step, Option.ite_none_right_eq_some, Option.some.injEq] at h
    obtain ⟨-, rfl⟩ := h
    rintro ⟨⟩
  | unregisterRemove | close =>
    simp only [Supervise.step] at h
    split at h <;> cases h
    rintro ⟨⟩

theorem manned_supervise {a : SuperviseAct} (hc : c.Manned) (h : Supervise.step w i c a = some r) :
    r.2.Manned := by
  obtain ⟨hw, hf, hr⟩ := supervise_tasks h
  rcases supervise_rank h with ⟨h1, h2⟩ | ⟨h1, h2, -, hw', hf', hr'⟩
  · refine ⟨fun _ => ?_, fun _ => ?_, fun _ => ?_, fun h10 => ?_⟩
    · -- writer
      rcases hw with hw | hw <;> rw [hw]
      · exact hc.writer (by omega)
      · rintro ⟨⟩
    · -- fanout
      rcases hf with hf | hf <;> rw [hf]
      · exact hc.fanout (by omega)
      · rintro ⟨⟩
    · -- reader
      rcases hr with hr | hr <;> rw [hr]
      · exact hc.reader (by omega)
      · rintro ⟨⟩
    · -- running
      have hrunning : r.2.stage = .running := by
        have hrank : r.2.stage.rank = 10 := by omega
        cases hs : r.2.stage <;> rw [hs] at hrank <;> first | rfl | simp [Stage.rank] at hrank
        all_goals split at hrank <;> omega
      exact (supervise_left_running h hrunning).elim
  · have h6 : c.stage.rank ≤ 10 := by rw [h1]; decide
    exact .early (by rw [h2]; decide) (by rw [hr']; exact hc.running h6)

theorem manned_run {ok : ServerState E → ServerAct E → Prop} (h : Runs config ok p)
    (hc : p.session i = some c) : c.Manned := by
  refine (session_rule (J := fun _ _ => True) (K := fun _ _ c => c.Manned) trivial
    (fun _ _ _ => trivial) (fun _ _ _ _ _ => .early (by simp [Session.arrive, Stage.rank])
      (by rintro ⟨⟩)) ?_
    (fun _ _ _ _ _ _ _ _ _ => trivial) (fun p _ _ _ _ _ j c _ hI _ _ _ hc _ => hI.session j c hc)
    (fun _ _ _ _ => trivial) (fun _ _ _ _ hK => hK) h).session i c hc
  intro p i c a r _ hI _ hc hs
  have hK := hI.session i c hc
  refine ⟨trivial, ?_⟩
  cases a with
  | handshake b =>
    have hf := Handshake.step_framed hs
    rcases Handshake.stage_step hs with ⟨hb, hb'⟩ | ⟨hst, -⟩
    · have hrun := hK.running (by rw [rank_of_isHandshake hb]; omega)
      exact .early (by rw [rank_of_isHandshake hb']; omega) (by rw [hf.reader]; exact hrun)
    · exact ⟨by rw [hst, hf.writer]; exact hK.writer, by rw [hst, hf.fanout]; exact hK.fanout,
        by rw [hst, hf.reader]; exact hK.reader, by rw [hst, hf.reader]; exact hK.running⟩
  | setup b => exact manned_setup hK hs
  | writer b =>
    have hf := Writer.step_framed hs
    exact ⟨fun _ => (writer_on hs).2, by rw [hf.stage, hf.fanout]; exact hK.fanout,
      by rw [hf.stage, hf.reader]; exact hK.reader, by rw [hf.stage, hf.reader]; exact hK.running⟩
  | fanout b =>
    have hf := Fanout.step_framed hs
    exact ⟨by rw [hf.stage, hf.writer]; exact hK.writer, fun _ => (fanout_on hs).2,
      by rw [hf.stage, hf.reader]; exact hK.reader, by rw [hf.stage, hf.reader]; exact hK.running⟩
  | reader b =>
    have hk := (Reader.step_framed hs).kept
    have hmove := reader_moves hs
    exact ⟨by rw [hk.stage, hk.writer]; exact hK.writer, by rw [hk.stage, hk.fanout]; exact hK.fanout,
      fun _ => hmove.on, fun _ => hmove.uncancelled⟩
  | supervise b => exact manned_supervise hK hs
  | call b => cases hs

/-! ### Steps that leave less to do -/

theorem handshake_left {a : HandshakeAct} (h : Handshake.step w c a = some r) : r.2.left < c.left := by
  have hip := Bool.toNat_le c.ipPermit
  have hserver := Bool.toNat_le c.permit
  have htenant := Bool.toNat_le c.tenantPermit
  have hleft : ∀ {s : Stage} {d : Session E}, c.stage = s → s.hasTasks = false →
      d.stage.hasTasks = false →
      d.stage.left + d.permitsLeft < s.left + c.permitsLeft → d.left < c.left := by
    rintro s d rfl hs hd hlt
    simp only [Session.left, Session.tasksLeft, hs, hd]
    simpa using hlt
  cases a with
  | ipAdmission order =>
    simp only [Handshake.step, Option.ite_none_right_eq_some] at h
    obtain ⟨hst, h⟩ := h
    unfold Handshake.ipAdmission at h
    split at h
    · cases h
      exact hleft hst rfl rfl (by simp [Stage.left, Session.permitsLeft])
    · split at h
      · split at h <;> cases h
        · refine hleft hst rfl rfl ?_
          simp [Stage.left, Session.permitsLeft]
          omega
        · exact hleft hst rfl rfl (by simp [Stage.left, Session.permitsLeft])
      · cases h
  | globalPermit =>
    simp only [Handshake.step, Option.ite_none_right_eq_some, Option.some.injEq] at h
    obtain ⟨hst, rfl⟩ := h
    unfold Handshake.globalPermit
    split
    · refine hleft hst rfl rfl ?_
      simp [Stage.left, Session.permitsLeft]
      omega
    · exact hleft hst rfl rfl (by simp [Stage.left, Session.permitsLeft])
  | authenticate =>
    simp only [Handshake.step, Option.ite_none_right_eq_some, Option.some.injEq] at h
    obtain ⟨hst, rfl⟩ := h
    unfold Handshake.authenticate
    split <;> exact hleft hst rfl rfl (by simp [Stage.left, Session.permitsLeft])
  | tenantPermit =>
    simp only [Handshake.step, Option.ite_none_right_eq_some, Option.some.injEq] at h
    obtain ⟨hst, rfl⟩ := h
    unfold Handshake.tenantPermit
    split
    · exact hleft hst rfl rfl (by simp [Stage.left, Session.permitsLeft])
    · refine hleft hst rfl rfl ?_
      simp [Stage.left, Session.permitsLeft]
      omega
    · exact hleft hst rfl rfl (by simp [Stage.left, Session.permitsLeft])
  | upgrade succeeds =>
    simp only [Handshake.step, Option.ite_none_right_eq_some, Option.some.injEq] at h
    obtain ⟨hst, rfl⟩ := h
    cases succeeds <;> exact hleft hst rfl rfl (by simp [Stage.left, Session.permitsLeft])
  | countKind | countRejected =>
    simp only [Handshake.step] at h
    split at h <;> cases h
    rename_i hst
    exact hleft hst rfl rfl (by simp [Stage.left, Session.permitsLeft])
  | dropIp | dropGlobal | dropTenant =>
    simp only [Handshake.step, Option.ite_none_right_eq_some, Bool.and_eq_true, Option.some.injEq] at h
    obtain ⟨⟨hover, hheld⟩, rfl⟩ := h
    have hno : c.stage.hasTasks = false := by
      cases hs : c.stage <;> rw [hs] at hover <;> first | rfl | cases hover
    refine hleft rfl hno hno ?_
    simp only [Handshake.dropIp, Handshake.dropGlobal, Handshake.dropTenant, Session.permitsLeft, hheld,
      Bool.toNat_true, Bool.toNat_false]
    omega

theorem setup_left {a : SetupAct} (hc : c.Shaped) (h : Setup.step w i c a = some r) :
    r.2.left < c.left := by
  have hr := hc.reader
  have hf := hc.fanout
  have hw := hc.writer
  cases a <;> simp only [Setup.step, Option.ite_none_right_eq_some, Option.some.injEq] at h <;>
    obtain ⟨hst, rfl⟩ := h <;> rw [hst] at hr hf hw
  case openQueue =>
    simp only [Setup.openQueue]
    split <;> simp [Session.left, Session.tasksLeft, Session.permitsLeft, hst, Stage.left, Stage.hasTasks]
  case locate =>
    unfold Setup.locate
    split <;> simp [Session.left, Session.tasksLeft, Session.permitsLeft, hst, Stage.left, Stage.hasTasks]
  case ready =>
    unfold Setup.ready
    split <;> simp [Session.left, Session.tasksLeft, Session.permitsLeft, hst, Stage.left, Stage.hasTasks]
  case spawnWriter =>
    simp [Session.left, Session.tasksLeft, Session.permitsLeft, hst, Stage.left, Stage.hasTasks,
      hr (by decide), hf (by decide), ReaderPc.left, WriterPc.left, FanoutPc.left]
  case spawnFanout =>
    simp [Session.left, Session.tasksLeft, Session.permitsLeft, hst, Stage.left, Stage.hasTasks,
      hf (by decide), FanoutPc.left]
    omega
  case spawnReader =>
    simp [Session.left, Session.tasksLeft, Session.permitsLeft, hst, Stage.left, Stage.hasTasks,
      hr (by decide), ReaderPc.left]
    omega
  all_goals simp [Session.left, Session.tasksLeft, Session.permitsLeft, hst, Stage.left, Stage.hasTasks,
    Setup.accept, Setup.subscribe, Setup.number, Setup.register]

theorem reader_busy {a : ReaderAct} (h : Reader.step w i c a = some r) : 0 < c.reader.left := by
  cases hr : c.reader <;> first | exact Nat.succ_pos _ | skip
  all_goals cases a <;> simp [Reader.step, hr] at h

/-- A reader's step, other than one that takes a frame of a client that stays. -/
theorem reader_left {a : ReaderAct} (htasks : c.stage.hasTasks = true) (ha : leaving (.reader a) = true)
    (h : Reader.step w i c a = some r) : r.2.left < c.left := by
  have hk := (Reader.step_framed h).kept
  have hip : r.2.ipPermit = c.ipPermit := congrArg Ticket.ipPermit hk.ticket
  have hserver : r.2.permit = c.permit := congrArg Ticket.permit hk.ticket
  have htenant : r.2.tenantPermit = c.tenantPermit := congrArg Ticket.tenantPermit hk.ticket
  have hbusy := reader_busy h
  have hless : r.2.reader.left < c.reader.left := by
    have hmove := (reader_moves h).left
    cases a with
    | frame f =>
      simp only [Reader.step] at h
      split at h <;> cases h
      rename_i hr
      rw [hr]
      cases f with
      | close => exact Nat.succ_pos 2
      | _ => cases ha
    | _ =>
      simp only [ReaderAct.leaves] at hmove
      omega
  simp only [Session.left, Session.tasksLeft, Session.permitsLeft, hk.stage, htasks, hk.writer, hk.fanout,
    hip, hserver, htenant, if_true]
  omega

theorem supervise_left {a : SuperviseAct} (h : Supervise.step w i c a = some r) : r.2.left < c.left := by
  cases a with
  | select t =>
    simp only [Supervise.step, Option.ite_none_right_eq_some, Option.some.injEq] at h
    obtain ⟨⟨hst, -⟩, rfl⟩ := h
    simp [Session.left, Session.tasksLeft, Session.permitsLeft, hst, Stage.left, Stage.hasTasks]
  | cancel t =>
    simp only [Supervise.step] at h
    split at h
    · rename_i hst
      split at h
      · cases t <;> simp only [Supervise.cancel] at h <;> split at h <;> cases h <;> rename_i hpc
        all_goals
          simp [Session.left, Session.tasksLeft, Session.permitsLeft, hst, Stage.left, Stage.hasTasks, hpc,
            ReaderPc.left, WriterPc.left, FanoutPc.left]
      · cases h
    · cases h
  | join =>
    simp only [Supervise.step] at h
    split at h
    · rename_i hst
      split at h <;> cases h
      simp [Session.left, Session.tasksLeft, Session.permitsLeft, hst, Stage.left, Stage.hasTasks]
      omega
    · cases h
  | unregisterGet =>
    simp only [Supervise.step, Option.ite_none_right_eq_some, Option.some.injEq] at h
    obtain ⟨hst, rfl⟩ := h
    simp [Session.left, Session.tasksLeft, Session.permitsLeft, hst, Stage.left, Stage.hasTasks]
  | unregisterRemove | close =>
    simp only [Supervise.step] at h
    split at h <;> cases h
    rename_i hst
    simp [Supervise.unregisterRemove, Session.left, Session.tasksLeft, Session.permitsLeft, hst, Stage.left,
      Stage.hasTasks]

theorem forward_left (htasks : c.stage.hasTasks = true) (h : Fanout.step w i c .forward = some r) :
    r.2.left < c.left := by
  simp only [Fanout.step] at h
  split at h <;> cases h
  rename_i m hf
  simp only [Fanout.forward]
  split <;> simp [Session.left, Session.tasksLeft, Session.permitsLeft, htasks, hf, FanoutPc.left]

/-! ### One of them is enabled -/

/-- Connection `i` has a step, good when its client leaves, after which less is left to do. -/
def CanShrink (w : World E) (i : ℕ) (c : Session E) : Prop :=
  ∃ a r, leaving a = true ∧ Session.step w i c a = some r ∧ r.2.left < c.left

theorem CanShrink.handshake {a : HandshakeAct} (ha : leaving (.handshake a) = true)
    (h : (Handshake.step w c a).isSome = true) : CanShrink w i c := by
  obtain ⟨r, hr⟩ := Option.isSome_iff_exists.mp h
  exact ⟨.handshake a, r, ha, hr, handshake_left hr⟩

theorem CanShrink.setup {a : SetupAct} (hc : c.Shaped) (h : (Setup.step w i c a).isSome = true) :
    CanShrink w i c := by
  obtain ⟨r, hr⟩ := Option.isSome_iff_exists.mp h
  exact ⟨.setup a, r, rfl, hr, setup_left hc hr⟩

theorem CanShrink.supervise {a : SuperviseAct} (h : (Supervise.step w i c a).isSome = true) :
    CanShrink w i c := by
  obtain ⟨r, hr⟩ := Option.isSome_iff_exists.mp h
  exact ⟨.supervise a, r, rfl, hr, supervise_left hr⟩

/-- A reader that is neither off nor done goes on, or takes the close of its client. -/
theorem CanShrink.reader (htasks : c.stage.hasTasks = true) (h : 0 < c.reader.left) :
    CanShrink w i c := by
  have hstep : ∀ a, leaving (.reader a) = true → (Reader.step w i c a).isSome = true →
      CanShrink w i c := by
    intro a ha h
    obtain ⟨r, hr⟩ := Option.isSome_iff_exists.mp h
    exact ⟨.reader a, r, ha, hr, reader_left htasks ha hr⟩
  cases hr : c.reader with
  | off | cancelled | ended _ => rw [hr] at h; cases h
  | spawned => exact hstep .start rfl (by simp [Reader.step, hr])
  | idle => exact hstep (.frame .close) rfl (by simp [Reader.step, hr])
  | checking f => exact hstep .tenantRate rfl (by simp [Reader.step, hr])
  | publishing topicKey encoded => exact hstep .locate rfl (by simp [Reader.step, hr])
  | sending topicKey ch encoded => exact hstep .send rfl (by simp [Reader.step, hr])
  | directing target encoded => exact hstep .direct rfl (by simp [Reader.step, hr])
  | replying encoded => exact hstep .reply rfl (by simp [Reader.step, hr])
  | limited => exact hstep .limitError rfl (by simp [Reader.step, hr])
  | limitedClose error => exact hstep .limitClose rfl (by simp [Reader.step, hr])

/-- An IP limiter admits or refuses. -/
theorem ipAdmission_enabled (w : World E) (hst : c.stage = .arrived) :
    ∃ order, (Handshake.step w c (.ipAdmission order)).isSome = true := by
  cases hlim : w.app.ipLimiter with
  | none => exact ⟨[], by simp [Handshake.step, hst, Handshake.ipAdmission, hlim]⟩
  | some limiter =>
    have hperm : limiter.states.keys.isPerm limiter.states.keys = true :=
      List.isPerm_iff.mpr (List.Perm.refl _)
    refine ⟨limiter.states.keys, ?_⟩
    simp only [Handshake.step, hst, if_true, Handshake.ipAdmission, hlim, hperm]
    split <;> rfl

/-- An aborted task is at an await point, or has a step to it. -/
theorem abort_enabled (hm : c.Manned) {first t : ConnectionTask} (hst : c.stage = .selected first)
    (ht : t ∈ first.others) (hended : c.hasEnded t = false) (hcancelled : c.isCancelled t = false) :
    CanShrink w i c := by
  have hrank : c.stage.rank = 11 := by rw [hst]; rfl
  have htasks : c.stage.hasTasks = true := by rw [hst]; rfl
  have hcancel : (Supervise.cancel w i c t).isSome = true → CanShrink w i c := by
    intro h
    exact .supervise (a := .cancel t) (by simp only [Supervise.step, hst, ht, if_true, h])
  cases t with
  | reader =>
    cases hr : c.reader with
    | off => exact (hm.reader (by omega) hr).elim
    | cancelled => simp [Session.isCancelled, hr] at hcancelled
    | ended how => simp [Session.hasEnded, hr] at hended
    | _ => exact .reader htasks (by rw [hr]; exact Nat.succ_pos _)
  | writer =>
    cases hw : c.writer with
    | off => exact (hm.writer (by omega) hw).elim
    | cancelled => simp [Session.isCancelled, hw] at hcancelled
    | failed => simp [Session.hasEnded, hw] at hended
    | _ => exact hcancel (by simp only [Supervise.cancel, hw]; rfl)
  | fanout =>
    cases hf : c.fanout with
    | off => exact (hm.fanout (by omega) hf).elim
    | cancelled => simp [Session.isCancelled, hf] at hcancelled
    | stopped m => simp [Session.hasEnded, hf] at hended
    | waiting => exact hcancel (by simp only [Supervise.cancel, hf]; rfl)
    | holding m =>
      have hstep : Fanout.step w i c .forward = some (Fanout.forward w i c m) := by
        simp only [Fanout.step, hf]
      exact ⟨.fanout .forward, _, rfl, hstep, forward_left htasks hstep⟩

/-- As long as something is left of a connection it can go on without the others, without its client
    and without time passing. -/
theorem canShrink (hsh : c.Shaped) (hm : c.Manned) (h : c.left ≠ 0) : CanShrink w i c := by
  cases hst : c.stage with
  | arrived =>
    obtain ⟨order, horder⟩ := ipAdmission_enabled w hst
    exact .handshake rfl horder
  | ipAdmitted => exact .handshake (a := .globalPermit) rfl (by simp [Handshake.step, hst])
  | permitted => exact .handshake (a := .authenticate) rfl (by simp [Handshake.step, hst])
  | authenticated => exact .handshake (a := .tenantPermit) rfl (by simp [Handshake.step, hst])
  | admitted => exact .handshake (a := .upgrade false) rfl (by simp [Handshake.step, hst])
  | refusing r => exact .handshake (a := .countKind) rfl (by simp [Handshake.step, hst])
  | counted r => exact .handshake (a := .countRejected) rfl (by simp [Handshake.step, hst])
  | upgraded => exact .setup (a := .accept) hsh (by simp [Setup.step, hst])
  | accepted => exact .setup (a := .openQueue) hsh (by simp [Setup.step, hst])
  | opened => exact .setup (a := .locate) hsh (by simp [Setup.step, hst])
  | located => exact .setup (a := .subscribe) hsh (by simp [Setup.step, hst])
  | subscribed => exact .setup (a := .number) hsh (by simp [Setup.step, hst])
  | numbered => exact .setup (a := .register) hsh (by simp [Setup.step, hst])
  | registered => exact .setup (a := .ready) hsh (by simp [Setup.step, hst])
  | readied => exact .setup (a := .spawnWriter) hsh (by simp [Setup.step, hst])
  | writerSpawned => exact .setup (a := .spawnFanout) hsh (by simp [Setup.step, hst])
  | fanoutSpawned => exact .setup (a := .spawnReader) hsh (by simp [Setup.step, hst])
  | running =>
    cases hr : c.reader with
    | off => exact (hm.reader (by rw [hst]; decide) hr).elim
    | cancelled => exact (hm.running (by rw [hst]; decide) hr).elim
    | ended how =>
      exact .supervise (a := .select .reader) (by simp [Supervise.step, hst, Session.hasEnded, hr])
    | _ => exact .reader (by rw [hst]; rfl) (by rw [hr]; exact Nat.succ_pos _)
  | selected first =>
    by_cases hall : (first.others.all fun t => c.hasEnded t || c.isCancelled t) = true
    · exact .supervise (a := .join) (by simp only [Supervise.step, hst, hall, if_true]; rfl)
    · rw [List.all_eq_true] at hall
      push Not at hall
      obtain ⟨t, ht, hnot⟩ := hall
      rw [ne_eq, Bool.or_eq_true, not_or, Bool.not_eq_true, Bool.not_eq_true] at hnot
      exact abort_enabled hm hst ht hnot.1 hnot.2
  | joined => exact .supervise (a := .unregisterGet) (by simp [Supervise.step, hst])
  | matched own => exact .supervise (a := .unregisterRemove) (by simp [Supervise.step, hst])
  | returned own => exact .supervise (a := .close) (by simp [Supervise.step, hst])
  | refused _ | upgradeFailed | closed _ | panicked =>
    have hover : c.stage.isOver = true := by rw [hst]; rfl
    by_cases hip : c.ipPermit = true
    · exact .handshake (a := .dropIp) rfl (by simp [Handshake.step, hover, hip])
    · by_cases hserver : c.permit = true
      · exact .handshake (a := .dropGlobal) rfl (by simp [Handshake.step, hover, hserver])
      · by_cases htenant : c.tenantPermit = true
        · exact .handshake (a := .dropTenant) rfl (by simp [Handshake.step, hover, htenant])
        · refine (h ?_).elim
          simp [Session.left, Session.tasksLeft, Session.permitsLeft, hst, Stage.left, Stage.hasTasks, hip,
            hserver, htenant]

theorem call_canShrink {d : Call E} (h : d.pc.left ≠ 0) :
    ∃ a r, Api.step w i d a = some r ∧ r.2.pc.left < d.pc.left := by
  cases hp : d.pc with
  | done _ | panicked => rw [hp] at h; exact (h rfl).elim
  | arrived =>
    refine ⟨.resolve, _, by simp [Api.step, hp]; rfl, ?_⟩
    simp only [Api.resolve]
    split
    · exact Nat.succ_pos 2
    · split
      · simp only [Api.publish]
        split
        · exact Nat.lt_succ_self 2
        · exact Nat.succ_pos 2
      · simp only [Api.direct]
        split
        · exact Nat.lt_add_of_pos_left (by decide)
        · exact Nat.succ_pos 2
  | publishing topicKey encoded =>
    refine ⟨.locate, _, by simp [Api.step, hp]; rfl, ?_⟩
    unfold Api.locate
    split
    · exact Nat.lt_succ_self 1
    · exact Nat.succ_pos 1
  | sending topicKey ch encoded =>
    exact ⟨.send, Api.send w i d topicKey ch encoded, by simp [Api.step, hp], Nat.succ_pos 0⟩
  | directing target encoded =>
    refine ⟨.direct, _, by simp [Api.step, hp]; rfl, ?_⟩
    simp only [Api.deliver]
    split <;> exact Nat.succ_pos 0

theorem descends (E : Ext) (config : Config) :
    (server E).Descends (fun p => Runs config always p) Task.left leaving where
  step := by
    intro p i l hr hl h
    cases l with
    | ws c =>
      have hc := session_eq_some.mpr hl
      obtain ⟨a, ⟨w', c'⟩, ha, hs, hless⟩ := canShrink (w := p.shared) (i := i) (shaped_run hr hc)
        (manned_run hr hc) h
      exact ⟨a, w', .ws c', ha, Option.map_eq_some_iff.mpr ⟨_, hs, rfl⟩, hless⟩
    | http d =>
      obtain ⟨a, ⟨w', d'⟩, hs, hless⟩ := call_canShrink (w := p.shared) (i := i) h
      exact ⟨.call a, w', .http d', rfl, Option.map_eq_some_iff.mpr ⟨_, hs, rfl⟩, hless⟩
  keep _ _ _ _ hr hs := .tail hr trivial hs

/-! ### The results -/

theorem session_lasts {ok : ServerState E → ServerAct E → Prop} {p' : ServerState E}
    (h : Reach (server E).next ok p p') (hc : p.session i = some c) : ∃ d, p'.session i = some d := by
  refine h.invariant (I := fun q => ∃ d, ServerState.session q i = some d) ⟨c, hc⟩ ?_
  rintro q a q' - ⟨d, hd⟩ - hs
  cases progress hs hd with
  | own b d' hnow hstep => exact ⟨d', hnow⟩
  | other j l l' b hne hnow hstep => exact ⟨d, hnow⟩
  | quiet t hnow hw => exact ⟨d, hnow⟩

/-- Whatever the others are at, a connection whose client leaves is gone after at most 41 steps of its
    own. -/
theorem closes_alone (h : Runs config always p) (hc : p.session i = some c) :
    ∃ (as : List TaskAct) (w : World E) (d : Session E), as.length ≤ 41 ∧
      exec (server E).next (onlyRuns leaving) p (as.map (.run i)) = some ⟨w, p.threads.set i (.ws d)⟩ ∧
      d.isGone = true := by
  have hl := session_eq_some.mp hc
  have hlt := (List.getElem?_eq_some_iff.mp hl).1
  obtain ⟨as, w, l', hlen, hexec, -, h0⟩ :=
    (descends E config).finish i (left_le c : Task.left (.ws c) ≤ 41) h hl
  obtain ⟨d, hd⟩ := session_lasts (exec_reach hexec) hc
  have hget : (p.threads.set i l')[i]? = some (.ws d) := session_eq_some.mp hd
  rw [List.getElem?_set_self hlt, Option.some.injEq] at hget
  subst hget
  exact ⟨as, w, d, hlen, hexec, isGone_of_left h0⟩

/-- A subscriber at work, and a connection that is still being set up. -/
def workingAndEntering : List (ServerAct Ext.plain) :=
  [.spawn (.ws (.v4 1) ⟨"a", none, some "x", none⟩), .spawn (.ws (.v4 2) ⟨"a", none, some "y", none⟩)] ++
    steps 0 (handshakeSteps ++ registerSteps ++ spawnSteps) ++ steps 1 (handshakeSteps ++ registerSteps)

theorem closes_alone_working : ∃ (p : ServerState Ext.plain) (as : List TaskAct) (w : World Ext.plain)
    (d : Session Ext.plain), p.shared.app.connectionLimit.free = 8 ∧ as.length ≤ 41 ∧
      exec (server Ext.plain).next (onlyRuns leaving) p (as.map (.run 0)) =
        some ⟨w, p.threads.set 0 (.ws d)⟩ ∧ d.isGone = true := by
  have hplay : (play Config.plain (fun _ _ => true) workingAndEntering).map
      (fun p : ServerState Ext.plain => decide (p.shared.app.connectionLimit.free = 8) &&
        (p.session 0).isSome) = some true := by
    decide +kernel
  obtain ⟨p, hp, hcheck⟩ := play_check _ _ _ _ hplay
  obtain ⟨hfree, hsome⟩ := Bool.and_eq_true_iff.mp hcheck
  obtain ⟨c, hc⟩ := Option.isSome_iff_exists.mp hsome
  obtain ⟨as, w, d, hlen, hexec, hgone⟩ := closes_alone hp.toAlways hc
  exact ⟨p, as, w, d, of_decide_eq_true hfree, hlen, hexec, hgone⟩

theorem panics_step {d : Call E} {a : CallAct} {s : World E × Call E} (h : Api.step w i d a = some s)
    (hpc : s.2.pc = .panicked) :
    broadcastPanics E.slotSize w.app.config.topicChannelCapacity = true := by
  cases a with
  | resolve =>
    simp only [Api.step] at h
    split at h <;> cases h
    simp only [Api.resolve] at hpc
    split at hpc
    · cases hpc
    · split at hpc
      · simp only [Api.publish] at hpc
        split at hpc <;> cases hpc
      · simp only [Api.direct] at hpc
        split at hpc <;> cases hpc
  | locate =>
    simp only [Api.step] at h
    split at h <;> cases h
    simp only [Api.locate] at hpc
    split at hpc
    · cases hpc
    · rename_i hnone
      simp only [World.topicSender] at hnone
      split at hnone
      · cases hnone
      · split at hnone
        · assumption
        · cases hnone
  | send =>
    simp only [Api.step] at h
    split at h <;> cases h
    cases hpc
  | direct =>
    simp only [Api.step] at h
    split at h <;> cases h
    simp only [Api.deliver] at hpc
    split at hpc <;> cases hpc

/-- A call panics only on the capacity of the topic channels. -/
theorem call_panicked {ok : ServerState E → ServerAct E → Prop} (h : Runs config ok p) {d : Call E}
    (hd : p.call i = some d) (hpc : d.pc = .panicked) :
    broadcastPanics E.slotSize config.topicChannelCapacity = true := by
  refine (Prog.rely_guarantee (J := fun _ _ => True)
    (K := fun (_ : World E) (_ : ℕ) l => ∀ d, l = Task.http d → d.pc = .panicked →
      broadcastPanics E.slotSize config.topicChannelCapacity = true)
    ⟨trivial, fun i l hl => by simp [boot] at hl⟩ ?_ ?_ ?_ ?_ h).each i _ (call_eq_some.mp hd) d rfl hpc
  · rintro p request - -
    refine ⟨trivial, ?_⟩
    rintro d hd hpanicked
    cases request <;> cases hd
    cases hpanicked
  · intro p i l a w' l' hr hI _ hl (hs : Task.step p.shared i l a = some (w', l'))
    refine ⟨trivial, ?_⟩
    rintro d' rfl hpanicked
    cases l with
    | ws c =>
      obtain ⟨c', hc, -⟩ := step_ws hs
      cases hc
    | http d =>
      obtain ⟨d'', b, hd, rfl, hstep⟩ := step_http hs
      cases hd
      have hconfig : p.shared.app.config = config := (booked_run hr).shared.configured
      rw [← hconfig]
      exact panics_step hstep hpanicked
  · intro p i l a w' l' j m _ hI _ _ _ hm _
    exact hI.each j m hm
  · intro p e w' hI _
    exact ⟨trivial, hI.each⟩

/-- Nothing is left of any request, and what they shared is as it was. -/
structure Drained (config : Config) (p : ServerState E) : Prop where
  connections : ∀ i c, p.session i = some c → c.isGone = true
  calls : ∀ i d, p.call i = some d → (∃ response, d.pc = .done response) ∨
    (d.pc = .panicked ∧ broadcastPanics E.slotSize config.topicChannelCapacity = true)
  server : p.shared.app.connectionLimit.free = config.maxConnections
  tenants : ∀ cap tenantId, config.tenantMaxConnections = some cap →
    p.shared.pools.tenantFree cap tenantId = cap
  addresses : ∀ lim ip, p.shared.app.ipLimiter = some lim → lim.concurrentOf ip = 0
  /-- Only a connection whose `Ready` could not be encoded leaves its entry behind. -/
  clients : ∀ key handle, p.shared.app.clients.lookup key = some handle →
    ∃ c, p.session handle.sender = some c ∧ c.stage = .closed false
  gauge : config.HasRoom E → p.shared.app.metrics.activeConnections = 0

theorem drained_of_left (h : Runs config always p) (h0 : ∀ l ∈ p.threads, l.left = 0) :
    Drained config p := by
  have hgone : ∀ i c, p.session i = some c → c.isGone = true := by
    intro i c hc
    exact isGone_of_left (h0 _ (List.mem_of_getElem? (session_eq_some.mp hc)))
  obtain ⟨hserver, htenants, haddresses⟩ := initial_of_gone h hgone
  refine ⟨hgone, ?_, hserver, htenants, haddresses, ?_, ?_⟩
  · -- calls
    intro i d hd
    have hleft : d.pc.left = 0 := h0 _ (List.mem_of_getElem? (call_eq_some.mp hd))
    cases hp : d.pc with
    | done response => exact .inl ⟨response, rfl⟩
    | panicked => exact .inr ⟨rfl, call_panicked h hd hp⟩
    | _ => rw [hp] at hleft; cases hleft
  · -- clients
    intro key handle hl
    obtain ⟨c, hc, hholds, -, -⟩ := entry_session h hl
    obtain ⟨hover, -⟩ := Bool.and_eq_true_iff.mp (hgone _ c hc)
    refine ⟨c, hc, ?_⟩
    have hphase : c.stage.phase.holds = true := hholds
    cases hs : c.stage with
    | closed own =>
      cases own with
      | false => rfl
      | true => rw [hs] at hphase; cases hphase
    | refused | upgradeFailed | panicked => rw [hs] at hphase; cases hphase
    | _ => rw [hs] at hover; cases hover
  · -- gauge
    intro hroom
    rw [(gauge_of_no_panic h fun i c hc => no_panic_run hroom h hc).active]
    refine count_eq_zero fun i c hc => ?_
    obtain ⟨hover, -⟩ := Bool.and_eq_true_iff.mp (hgone i c hc)
    cases hs : c.stage <;> rw [hs] at hover <;> first | rfl | cases hover

/-- From every reachable state, if all clients leave and nobody comes, at most 41 steps a request end all
    requests without time passing, and every pool is full again. -/
theorem drains (h : Runs config always p) : ∃ (as : List (ServerAct E)) (p' : ServerState E),
    as.length ≤ 41 * p.threads.length ∧ exec (server E).next (onlyRuns leaving) p as = some p' ∧
      Drained config p' := by
  have hsum : (p.threads.map Task.left).sum ≤ 41 * p.threads.length := by
    have hle := List.sum_le_card_nsmul (p.threads.map Task.left) 41 (by
      intro n hn
      obtain ⟨l, -, rfl⟩ := List.mem_map.mp hn
      cases l with
      | ws c => exact left_le c
      | http d => cases hp : d.pc <;> simp [Task.left, hp, CallPc.left])
    simpa [Nat.mul_comm] using hle
  obtain ⟨as, p', hlen, hexec, hrun, h0⟩ := (descends E config).drain hsum h
  exact ⟨as, p', hlen, hexec, drained_of_left hrun h0⟩

theorem drains_working : ∃ (p : ServerState Ext.plain) (as : List (ServerAct Ext.plain))
    (p' : ServerState Ext.plain), p.shared.app.clients.entries.length = 2 ∧
      as.length ≤ 41 * p.threads.length ∧
        exec (server Ext.plain).next (onlyRuns leaving) p as = some p' ∧ Drained Config.plain p' := by
  have hplay : (play Config.plain (fun _ _ => true) workingAndEntering).map
      (fun p : ServerState Ext.plain => decide (p.shared.app.clients.entries.length = 2)) = some true := by
    decide +kernel
  obtain ⟨p, hp, hcheck⟩ := play_check _ _ _ _ hplay
  obtain ⟨as, p', hlen, hexec, hdrained⟩ := drains hp.toAlways
  exact ⟨p, as, p', of_decide_eq_true hcheck, hlen, hexec, hdrained⟩

end WsServer
