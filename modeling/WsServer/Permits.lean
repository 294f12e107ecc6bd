import WsServer.Clients
import WsServer.Frames

/-! The permits of handshakes and connections. `PoolStep` says once what a step does to the pools and
    to the permits a request holds. The stage of a request determines what it has taken, every pool is
    its initial value less what all requests hold, and the counters of refusals are sums over the
    stages. -/

namespace WsServer

open Lib

variable {E : Ext}

/-! ### What a stage stands for -/

/-- Which permits: of the address, of the server, of the tenant. -/
@[ext] structure Permits where
  ip : Bool
  server : Bool
  tenant : Bool
  deriving DecidableEq

namespace Permits

def none : Permits := ⟨false, false, false⟩

def all : Permits := ⟨true, true, true⟩

instance : LE Permits := ⟨fun a b => a.ip ≤ b.ip ∧ a.server ≤ b.server ∧ a.tenant ≤ b.tenant⟩

end Permits

/-- The permits that a refused handshake had asked for and got. -/
def Refusal.taken : Refusal → Permits
  | .ip _ => .none
  | .full => ⟨true, false, false⟩
  | .invalidToken | .missingToken | .tenant => ⟨true, true, false⟩

/-- The permits that a request has asked for and got by now. -/
def Stage.taken : Stage → Permits
  | .arrived => .none
  | .ipAdmitted => ⟨true, false, false⟩
  | .permitted | .authenticated => ⟨true, true, false⟩
  | .refusing r | .counted r | .refused r => r.taken
  | _ => .all

/-- There is an IP limiter. -/
def Config.limitsIp (config : Config) : Bool :=
  config.ipMaxConcurrent.isSome || config.ipConnectionRate.isSome

/-- A pool that is off gives no permit to keep. -/
def Stage.due (s : Stage) (config : Config) : Permits :=
  { ip := s.taken.ip && config.limitsIp
    server := s.taken.server
    tenant := s.taken.tenant && config.tenantMaxConnections.isSome }

def Ticket.held (t : Ticket) : Permits := ⟨t.ipPermit, t.permit, t.tenantPermit⟩

/-- The counters of a kind of refusal: `rejected_connections`, `ip_rejected`, `auth_rejected`,
    `tenant_rejected`. -/
def Refusal.kind : Refusal → ℕ × ℕ × ℕ × ℕ
  | .ip _ => (0, 1, 0, 0)
  | .full => (0, 0, 0, 0)
  | .invalidToken | .missingToken => (0, 0, 1, 0)
  | .tenant => (0, 0, 0, 1)

/-- What a request has been counted as. -/
def Stage.rejections : Stage → ℕ × ℕ × ℕ × ℕ
  | .counted r => r.kind
  | .refused r => (1, 0, 0, 0) + r.kind
  | _ => 0

/-- The request is past its handshake, or at the end of one that the client broke off. -/
def Stage.isLate : Stage → Bool
  | .arrived | .ipAdmitted | .permitted | .authenticated | .refusing _ | .counted _ | .refused _ =>
    false
  | _ => true

theorem taken_of_isLate {s : Stage} (h : s.isLate = true) :
    s.taken = .all ∧ s.rejections = 0 := by
  cases s <;> first | exact ⟨rfl, rfl⟩ | cases h

/-! ### The steps -/

/-- What the drop of a permit does to the semaphores of the tenants. -/
def giveBack (tenantId : String) (limits : Dict String Semaphore) : Dict String Semaphore :=
  match limits.lookup tenantId with
  | some sem => limits.insert tenantId sem.release
  | none => limits

/-- What a step of a request does to the pools. -/
inductive PoolStep (now : ℕ) (g : Pools E) (c : Session E) (g' : Pools E) (c' : Session E) : Prop
  | quiet (pools : g' = g) (ticket : c'.ticket = c.ticket) (taken : c'.stage.taken = c.stage.taken)
      (rejections : c'.stage.rejections = c.stage.rejections)
      (finished : c.stage.isOver = true → c'.stage.isOver = true)
  | ipOff (off : g.ipLimiter = none) (pools : g' = g) (ticket : c'.ticket = c.ticket)
      (stage : c.stage = .arrived) (stage' : c'.stage = .ipAdmitted)
  | ipTaken (order : List IpAddr) (lim lim' : IpLimiter E.F) (on : g.ipLimiter = some lim)
      (acquired : lim.tryAcquire now order c.ip = (.ok (), lim'))
      (pools : g' = { g with ipLimiter := some lim' })
      (ticket : c'.ticket = { c.ticket with ipPermit := true })
      (stage : c.stage = .arrived) (stage' : c'.stage = .ipAdmitted)
  | ipRefused (order : List IpAddr) (lim lim' : IpLimiter E.F) (r : IpRejection)
      (on : g.ipLimiter = some lim) (acquired : lim.tryAcquire now order c.ip = (.error r, lim'))
      (pools : g' = { g with ipLimiter := some lim' }) (ticket : c'.ticket = c.ticket)
      (stage : c.stage = .arrived) (stage' : c'.stage = .refusing (.ip r))
  | serverTaken (sem : Semaphore) (acquired : g.connectionLimit.tryAcquire = some sem)
      (pools : g' = { g with connectionLimit := sem })
      (ticket : c'.ticket = { c.ticket with permit := true })
      (stage : c.stage = .ipAdmitted) (stage' : c'.stage = .permitted)
  | identified (identity : AuthIdentity) (pools : g' = g)
      (ticket : c'.ticket = { c.ticket with identity := identity })
      (stage : c.stage = .permitted) (stage' : c'.stage = .authenticated)
  | tenantOff (off : g.tenantLimits = none ∨ g.config.tenantMaxConnections = none)
      (pools : g' = g) (ticket : c'.ticket = c.ticket)
      (stage : c.stage = .authenticated) (stage' : c'.stage = .admitted)
  | tenantTaken (limits : Dict String Semaphore) (cap : ℕ) (sem : Semaphore)
      (on : g.tenantLimits = some limits) (limit : g.config.tenantMaxConnections = some cap)
      (acquired : ((limits.lookup c.identity.tenantId).getD { free := cap }).tryAcquire = some sem)
      (pools : g' = { g with tenantLimits := some (limits.insert c.identity.tenantId sem) })
      (ticket : c'.ticket = { c.ticket with tenantPermit := true })
      (stage : c.stage = .authenticated) (stage' : c'.stage = .admitted)
  | tenantRefused (limits : Dict String Semaphore) (cap : ℕ) (on : g.tenantLimits = some limits)
      (limit : g.config.tenantMaxConnections = some cap)
      (pools : g' = { g with tenantLimits := some (limits.insert c.identity.tenantId
        ((limits.lookup c.identity.tenantId).getD { free := cap })) })
      (ticket : c'.ticket = c.ticket)
      (stage : c.stage = .authenticated) (stage' : c'.stage = .refusing .tenant)
  | kindCounted (r : Refusal) (pools : g' = { g with rejections := g.rejections + r.kind })
      (ticket : c'.ticket = c.ticket) (stage : c.stage = .refusing r) (stage' : c'.stage = .counted r)
  | rejectedCounted (r : Refusal)
      (pools : g' = { g with rejections := g.rejections + (1, 0, 0, 0) })
      (ticket : c'.ticket = c.ticket) (stage : c.stage = .counted r) (stage' : c'.stage = .refused r)
  | ipDropped (held : c.ipPermit = true) (finished : c.stage.isOver = true)
      (pools : g' = { g with ipLimiter := g.ipLimiter.map (·.release now c.ip) })
      (ticket : c'.ticket = { c.ticket with ipPermit := false }) (stage' : c'.stage = c.stage)
  | serverDropped (held : c.permit = true) (finished : c.stage.isOver = true)
      (pools : g' = { g with connectionLimit := g.connectionLimit.release })
      (ticket : c'.ticket = { c.ticket with permit := false }) (stage' : c'.stage = c.stage)
  | tenantDropped (held : c.tenantPermit = true) (finished : c.stage.isOver = true)
      (pools : g' = { g with tenantLimits := g.tenantLimits.map (giveBack c.identity.tenantId) })
      (ticket : c'.ticket = { c.ticket with tenantPermit := false }) (stage' : c'.stage = c.stage)

variable {w : World E} {i : ℕ} {c : Session E} {r : World E × Session E}

/-- `PoolStep` for the step of a world. -/
abbrev Pooled (w : World E) (c : Session E) (r : World E × Session E) : Prop :=
  PoolStep w.now w.pools c r.1.pools r.2

theorem pooled_ipAdmission {order : List IpAddr} (hst : c.stage = .arrived)
    (h : Handshake.ipAdmission order w c = some r) : Pooled w c r := by
  simp only [Handshake.ipAdmission] at h
  split at h
  · cases h; exact .ipOff ‹_› rfl rfl hst rfl
  · split at h
    · split at h <;> cases h
      · exact .ipTaken order _ _ ‹_› ‹_› rfl rfl hst rfl
      · exact .ipRefused order _ _ _ ‹_› ‹_› rfl rfl hst rfl
    · cases h

theorem pooled_globalPermit (hst : c.stage = .ipAdmitted) :
    Pooled w c (Handshake.globalPermit w c) := by
  unfold Handshake.globalPermit
  split
  · exact .serverTaken _ ‹_› rfl rfl hst rfl
  · exact .quiet rfl rfl (by rw [hst]; rfl) (by rw [hst]; rfl) (by rw [hst]; exact nofun)

theorem pooled_authenticate (hst : c.stage = .permitted) :
    Pooled w c (Handshake.authenticate w c) := by
  unfold Handshake.authenticate
  split
  · exact .identified _ rfl rfl hst rfl
  · rename_i refusal hr
    have htaken : refusal.taken = ⟨true, true, false⟩ := by
      unfold wsIdentity at hr
      split at hr
      · split at hr
        · split at hr <;> cases hr; rfl
        · cases hr; rfl
      · cases hr
    exact .quiet rfl rfl (by rw [hst]; exact htaken) (by rw [hst]; rfl) (by rw [hst]; exact nofun)

theorem pooled_tenantPermit (hst : c.stage = .authenticated) :
    Pooled w c (Handshake.tenantPermit w c) := by
  unfold Handshake.tenantPermit AppState.acquireTenantPermit
  cases hl : w.app.tenantLimits with
  | none => exact .tenantOff (Or.inl hl) rfl rfl hst rfl
  | some limits =>
    cases hm : w.app.config.tenantMaxConnections with
    | none => exact .tenantOff (Or.inr hm) rfl rfl hst rfl
    | some cap =>
      cases ha : ((limits.lookup c.identity.tenantId).getD { free := cap }).tryAcquire with
      | some sem =>
        simp only [ha]
        exact .tenantTaken limits cap sem hl hm ha rfl rfl hst rfl
      | none =>
        simp only [ha]
        exact .tenantRefused limits cap hl hm rfl rfl hst rfl

theorem pooled_dropTenant (hheld : c.tenantPermit = true) (hover : c.stage.isOver = true) :
    Pooled w c (Handshake.dropTenant w c) := by
  refine .tenantDropped hheld hover ?_ rfl rfl
  unfold Handshake.dropTenant AppState.releaseTenantPermit
  cases hl : w.app.tenantLimits with
  | none => simp [World.pools, hl]
  | some limits => cases hs : limits.lookup c.identity.tenantId <;> simp [World.pools, hl, hs, giveBack]

theorem rejections_countKind (k : Refusal) (m : Metrics) :
    (Handshake.countKind k m).rejections = m.rejections + k.kind := by
  cases k <;> simp [Handshake.countKind, Metrics.rejections, Refusal.kind, Metrics.addIpRejected,
    Metrics.addAuthRejected, Metrics.addTenantRejected]

theorem pooled_handshake {a : HandshakeAct} (h : Handshake.step w c a = some r) : Pooled w c r := by
  cases a with
  | ipAdmission order =>
    simp only [Handshake.step, Option.ite_none_right_eq_some] at h
    exact pooled_ipAdmission h.1 h.2
  | globalPermit =>
    simp only [Handshake.step, Option.ite_none_right_eq_some, Option.some.injEq] at h
    obtain ⟨hst, rfl⟩ := h
    exact pooled_globalPermit hst
  | authenticate =>
    simp only [Handshake.step, Option.ite_none_right_eq_some, Option.some.injEq] at h
    obtain ⟨hst, rfl⟩ := h
    exact pooled_authenticate hst
  | tenantPermit =>
    simp only [Handshake.step, Option.ite_none_right_eq_some, Option.some.injEq] at h
    obtain ⟨hst, rfl⟩ := h
    exact pooled_tenantPermit hst
  | upgrade succeeds =>
    simp only [Handshake.step, Option.ite_none_right_eq_some, Option.some.injEq] at h
    obtain ⟨hst, rfl⟩ := h
    cases succeeds <;>
      exact .quiet rfl rfl (by rw [hst]; rfl) (by rw [hst]; rfl) (by rw [hst]; rintro ⟨⟩)
  | countKind =>
    simp only [Handshake.step] at h
    split at h <;> cases h
    rename_i k hst
    refine .kindCounted k ?_ rfl hst rfl
    simp only [World.pools, World.withMetrics, rejections_countKind]
  | countRejected =>
    simp only [Handshake.step] at h
    split at h <;> cases h
    rename_i k hst
    refine .rejectedCounted k ?_ rfl hst rfl
    simp [World.pools, World.withMetrics, Metrics.rejections, Metrics.connectionRejected]
  | dropIp =>
    simp only [Handshake.step, Option.ite_none_right_eq_some, Bool.and_eq_true, Option.some.injEq] at h
    obtain ⟨⟨hover, hheld⟩, rfl⟩ := h
    exact .ipDropped hheld hover rfl rfl rfl
  | dropGlobal =>
    simp only [Handshake.step, Option.ite_none_right_eq_some, Bool.and_eq_true, Option.some.injEq] at h
    obtain ⟨⟨hover, hheld⟩, rfl⟩ := h
    exact .serverDropped hheld hover rfl rfl rfl
  | dropTenant =>
    simp only [Handshake.step, Option.ite_none_right_eq_some, Bool.and_eq_true, Option.some.injEq] at h
    obtain ⟨⟨hover, hheld⟩, rfl⟩ := h
    exact pooled_dropTenant hheld hover

/-- Between stages of a connection nothing happens to the pools. -/
theorem Pooled.late (hpools : r.1.pools = w.pools) (hticket : r.2.ticket = c.ticket)
    (h : c.stage.isLate = true) (h' : r.2.stage.isLate = true)
    (hover : c.stage.isOver = true → r.2.stage.isOver = true) : Pooled w c r := by
  obtain ⟨ht, hr⟩ := taken_of_isLate h
  obtain ⟨ht', hr'⟩ := taken_of_isLate h'
  exact .quiet hpools hticket (ht'.trans ht.symm) (hr'.trans hr.symm) hover

theorem setup_isLate {a : SetupAct} (h : Setup.step w i c a = some r) :
    c.stage.isLate = true ∧ r.2.stage.isLate = true ∧ c.stage.isOver = false := by
  cases a <;> simp only [Setup.step, Option.ite_none_right_eq_some, Option.some.injEq] at h <;>
    obtain ⟨hst, rfl⟩ := h <;> rw [hst]
  case openQueue =>
    simp only [Setup.openQueue]
    split <;> exact ⟨rfl, rfl, rfl⟩
  case locate =>
    unfold Setup.locate
    split <;> exact ⟨rfl, rfl, rfl⟩
  case ready =>
    unfold Setup.ready
    split <;> exact ⟨rfl, rfl, rfl⟩
  all_goals exact ⟨rfl, rfl, rfl⟩

theorem pooled_setup {a : SetupAct} (h : Setup.step w i c a = some r) : Pooled w c r := by
  have hf := Setup.step_framed h
  obtain ⟨hlate, hlate', hover⟩ := setup_isLate h
  exact .late hf.pools hf.ticket hlate hlate' fun ho => by rw [hover] at ho; cases ho

theorem supervise_isOver {a : SuperviseAct} (h : Supervise.step w i c a = some r) :
    c.stage.isOver = false := by
  cases hst : c.stage <;> first | rfl | (cases a <;> simp [Supervise.step, hst] at h)

theorem supervise_isLate {a : SuperviseAct} (h : Supervise.step w i c a = some r) :
    c.stage.isLate = true ∧ r.2.stage.isLate = true := by
  have hlate : ∀ s : Stage, 1 ≤ s.rank → s.isLate = true := by
    rintro s hs
    cases s <;> first | rfl | (simp [Stage.rank] at hs)
  rcases supervise_rank h with ⟨h1, h2⟩ | ⟨h1, h2, -⟩
  · exact ⟨hlate _ (by omega), hlate _ (by omega)⟩
  · exact ⟨by rw [h1]; rfl, by rw [h2]; rfl⟩

theorem pooled_supervise {a : SuperviseAct} (h : Supervise.step w i c a = some r) :
    Pooled w c r := by
  have hf := Supervise.step_framed h
  have hover := supervise_isOver h
  obtain ⟨hlate, hlate'⟩ := supervise_isLate h
  exact .late hf.pools hf.ticket hlate hlate' fun ho => by rw [hover] at ho; cases ho

/-- Every step of a request is a `PoolStep`. -/
theorem pool_step {a : TaskAct} (h : Session.step w i c a = some r) : Pooled w c r := by
  have still : r.1.pools = w.pools → r.2.ticket = c.ticket → r.2.stage = c.stage → Pooled w c r :=
    fun hp ht hs => .quiet hp ht (by rw [hs]) (by rw [hs]) (by rw [hs]; exact id)
  cases a with
  | handshake b => exact pooled_handshake h
  | setup b => exact pooled_setup h
  | supervise b => exact pooled_supervise h
  | writer b =>
    have hf := Writer.step_framed h
    exact still (congrArg Books.pools hf.books) hf.ticket hf.stage
  | fanout b =>
    have hf := Fanout.step_framed h
    exact still (congrArg Books.pools hf.books) hf.ticket hf.stage
  | reader b =>
    have hf := Reader.step_framed h
    exact still (congrArg Books.pools hf.books) hf.kept.ticket hf.kept.stage
  | call b => cases h

/-! ### What never changes -/

/-- The parts of the pools that are as `AppState::new` made them. -/
structure Constant (config : Config) (g : Pools E) : Prop where
  configured : g.config = config
  auth : g.auth = AuthVerifier.fromConfig config
  tenants : g.tenantLimits.isSome = config.tenantMaxConnections.isSome
  limiter : g.ipLimiter.map (·.maxConcurrent) =
    (IpLimiter.fromConfig (F := E.F) config).map (·.maxConcurrent)

variable {now : ℕ} {g g' : Pools E} {c' : Session E} {config : Config}

theorem maxConcurrent_tryAcquire (now : ℕ) (order : List IpAddr) (ip : IpAddr)
    (lim : IpLimiter E.F) : (lim.tryAcquire now order ip).2.maxConcurrent = lim.maxConcurrent :=
  (IpLimiter.admission_maxConcurrent now ip _).trans (IpLimiter.reapIdle_spec now order lim).1

theorem constant_step (hs : PoolStep now g c g' c') (h : Constant config g) :
    Constant config g' := by
  cases hs
  case ipTaken order lim lim' on acquired pools ticket stage stage' =>
    have hmax := maxConcurrent_tryAcquire now order c.ip lim
    rw [acquired] at hmax
    subst pools
    exact ⟨h.configured, h.auth, h.tenants, by rw [← h.limiter, on]; simpa using hmax⟩
  case ipRefused order lim lim' r on acquired pools ticket stage stage' =>
    have hmax := maxConcurrent_tryAcquire now order c.ip lim
    rw [acquired] at hmax
    subst pools
    exact ⟨h.configured, h.auth, h.tenants, by rw [← h.limiter, on]; simpa using hmax⟩
  case ipDropped held finished pools ticket stage' =>
    subst pools
    refine ⟨h.configured, h.auth, h.tenants, h.limiter ▸ ?_⟩
    cases g.ipLimiter <;> simp
  case tenantTaken limits cap sem on limit acquired pools ticket stage stage' =>
    subst pools
    exact ⟨h.configured, h.auth, by rw [← h.tenants, on]; rfl, h.limiter⟩
  case tenantRefused limits cap on limit pools ticket stage stage' =>
    subst pools
    exact ⟨h.configured, h.auth, by rw [← h.tenants, on]; rfl, h.limiter⟩
  case tenantDropped held finished pools ticket stage' =>
    subst pools
    exact ⟨h.configured, h.auth, by rw [← h.tenants]; simp, h.limiter⟩
  all_goals
    obtain rfl := ‹g' = _›
    exact ⟨h.configured, h.auth, h.tenants, h.limiter⟩

theorem fromConfig_isSome (config : Config) :
    (IpLimiter.fromConfig (F := E.F) config).isSome = config.limitsIp := by
  unfold IpLimiter.fromConfig Config.limitsIp
  cases config.ipMaxConcurrent <;> cases config.ipConnectionRate <;> rfl

theorem Constant.limiter_isSome (h : Constant config g) : g.ipLimiter.isSome = config.limitsIp := by
  rw [← fromConfig_isSome (E := E), ← Option.isSome_map, h.limiter, Option.isSome_map]

/-- The cap of the limiter is the configured one. -/
theorem Constant.maxConcurrent (h : Constant config g) {lim : IpLimiter E.F}
    (hl : g.ipLimiter = some lim) :
    lim.maxConcurrent = config.ipMaxConcurrent.map UInt32.ofNat := by
  have heq := h.limiter
  rw [hl, Option.map_some] at heq
  unfold IpLimiter.fromConfig at heq
  dsimp only at heq
  split at heq
  · cases heq
  · exact Option.some.inj heq

/-! ### What a request holds -/

/-- A request holds what its stage is due, and once it is over no more than that. -/
structure Booked (config : Config) (c : Session E) : Prop where
  most : c.ticket.held ≤ c.stage.due config
  exact : c.stage.isOver = false → c.ticket.held = c.stage.due config

theorem Booked.of_eq (h : c.ticket.held = c.stage.due config) : Booked config c :=
  ⟨h ▸ ⟨le_rfl, le_rfl, le_rfl⟩, fun _ => h⟩

theorem booked_step (hg : Constant config g) (hb : Booked config c) (hs : PoolStep now g c g' c') :
    Booked config c' := by
  have hip := hg.limiter_isSome
  have htenant := hg.tenants
  have before : ∀ {s : Stage}, c.stage = s → s.isOver = false → c.ticket.held = s.due config := by
    rintro s rfl ho; exact hb.exact ho
  cases hs
  case quiet pools ticket taken rejections finished =>
    have hdue : c'.stage.due config = c.stage.due config := by rw [Stage.due, taken]; rfl
    refine ⟨by rw [ticket, hdue]; exact hb.most, fun ho => ?_⟩
    rw [ticket, hdue]
    refine hb.exact (Bool.eq_false_iff.mpr fun hover => ?_)
    rw [finished hover] at ho; cases ho
  case ipDropped held finished pools ticket stage' =>
    refine ⟨?_, fun ho => by rw [stage', finished] at ho; cases ho⟩
    rw [ticket, stage']
    exact ⟨Bool.false_le _, hb.most.2.1, hb.most.2.2⟩
  case serverDropped held finished pools ticket stage' =>
    refine ⟨?_, fun ho => by rw [stage', finished] at ho; cases ho⟩
    rw [ticket, stage']
    exact ⟨hb.most.1, Bool.false_le _, hb.most.2.2⟩
  case tenantDropped held finished pools ticket stage' =>
    refine ⟨?_, fun ho => by rw [stage', finished] at ho; cases ho⟩
    rw [ticket, stage']
    exact ⟨hb.most.1, hb.most.2.1, Bool.false_le _⟩
  case kindCounted r pools ticket stage stage' =>
    exact .of_eq (by rw [ticket, before stage rfl, stage']; rfl)
  case rejectedCounted r pools ticket stage stage' =>
    exact .of_eq (by rw [ticket, before stage rfl, stage']; rfl)
  case tenantOff off pools ticket stage stage' =>
    have hoff : config.tenantMaxConnections.isSome = false := by
      rcases off with off | off
      · rw [← htenant, off]; rfl
      · rw [← hg.configured, off]; rfl
    refine .of_eq ?_
    rw [ticket, before stage rfl, stage']
    simp [Stage.due, Stage.taken, Permits.all, hoff]
  case ipOff off pools ticket stage stage' =>
    rw [off] at hip
    refine .of_eq ?_
    rw [ticket, before stage rfl, stage']
    simp [Stage.due, Stage.taken, Permits.none, ← hip]
  case ipTaken order lim lim' on acquired pools ticket stage stage' =>
    have hheld := before stage rfl
    rw [on] at hip
    refine .of_eq ?_
    rw [ticket, stage']
    simp_all [Ticket.held, Stage.due, Stage.taken, Permits.none]
  case ipRefused order lim lim' reason on acquired pools ticket stage stage' =>
    exact .of_eq (by rw [ticket, before stage rfl, stage']; rfl)
  case serverTaken sem acquired pools ticket stage stage' =>
    have hheld := before stage rfl
    refine .of_eq ?_
    rw [ticket, stage']
    simp_all [Ticket.held, Stage.due, Stage.taken]
  case identified identity pools ticket stage stage' =>
    have hheld := before stage rfl
    refine .of_eq ?_
    rw [ticket, stage']
    exact hheld
  case tenantTaken limits cap sem on limit acquired pools ticket stage stage' =>
    have hheld := before stage rfl
    rw [on] at htenant
    refine .of_eq ?_
    rw [ticket, stage']
    simp_all [Ticket.held, Stage.due, Stage.taken, Permits.all]
  case tenantRefused limits cap on limit pools ticket stage stage' =>
    exact .of_eq (by rw [ticket, before stage rfl, stage']; rfl)

/-! ### Runs -/

theorem pools_http {d : Call E} {a : CallAct} {s : World E × Call E}
    (h : Api.step w i d a = some s) : s.1.pools = w.pools :=
  congrArg Books.pools (Api.step_framed h).books

theorem constant_init (config : Config) : Constant config (World.init E config).pools :=
  ⟨rfl, rfl, by simp [World.init, World.pools, AppState.new], rfl⟩

/-- Constants of the server and the bookings of every request. -/
theorem booked_run {ok : ServerState E → ServerAct E → Prop} {p : ServerState E}
    (h : Runs config ok p) :
    Keeps (fun _ w => Constant config w.pools) (fun _ _ c => Booked config c) p := by
  refine session_rule (constant_init config) (fun _ _ h => h) ?_ ?_ ?_
    (fun p _ _ _ _ _ j c _ hI _ _ _ hc _ => hI.session j c hc) (fun _ _ _ h => h)
    (fun _ _ _ _ h => h) h
  · -- arrive
    exact fun _ _ _ _ _ => .of_eq rfl
  · -- own
    rintro p i c a r - hI - hc hs
    have hstep := pool_step hs
    exact ⟨constant_step hstep hI.shared, booked_step hI.shared (hI.session i c hc) hstep⟩
  · -- http
    rintro p i d a r - hI - hs
    rw [pools_http hs]
    exact hI.shared

/-! ### A handshake that goes through -/

/-- The first handshake goes through when it comes at that moment from that address. -/
structure LetsIn (E : Ext) (config : Config) (now : ℕ) (ip : IpAddr) (query : WsQuery) : Prop where
  address : ∀ lim, IpLimiter.fromConfig (F := E.F) config = some lim →
    (lim.tryAcquire now [] ip).1 = .ok ()
  server : 0 < config.maxConnections
  identity : ∃ id, wsIdentity (AuthVerifier.fromConfig (E := E) config) now query = .ok id
  tenant : config.tenantMaxConnections ≠ some 0

/-- A step of the only request. -/
theorem run_only {ok : ServerState E → ServerAct E → Prop} {a : TaskAct}
    (h : Runs config ok ⟨w, [.ws c]⟩) (hok : ok ⟨w, [.ws c]⟩ (.run 0 a))
    (hs : Session.step w 0 c a = some r) : Runs config ok ⟨r.1, [.ws r.2]⟩ :=
  .tail h hok (by simp [Prog.next, server, Task.step, hs])

theorem lets_ip {now : ℕ} {ip : IpAddr} {query : WsQuery} (hin : LetsIn E config now ip query) :
    ∃ lim held, Handshake.step { World.init E config with now := now } (Session.arrive ip query)
      (.ipAdmission []) =
        some ({ World.init E config with
            now := now, app := { AppState.new E config with ipLimiter := lim } },
          { Session.arrive ip query with stage := .ipAdmitted, ipPermit := held }) := by
  simp only [Handshake.step, Handshake.ipAdmission, Session.arrive, if_true]
  split
  · exact ⟨(AppState.new E config).ipLimiter, false, rfl⟩
  · rename_i lim hl
    have hempty : lim.states = ∅ := IpLimiter.fromConfig_states hl
    have hok := hin.address lim hl
    have hscan : ([] : List IpAddr).isPerm lim.states.keys = true := by rw [hempty]; rfl
    simp only [hscan, if_true]
    split
    · exact ⟨_, true, rfl⟩
    · rename_i hrefused
      rw [hrefused] at hok
      cases hok

theorem lets_tenant {app : AppState E} {tenantId : String}
    (happ : app.config.tenantMaxConnections ≠ some 0)
    (hlimits : app.tenantLimits = app.config.tenantMaxConnections.map fun _ => ∅) :
    (app.acquireTenantPermit tenantId).1 ≠ some (.error ()) := by
  unfold AppState.acquireTenantPermit
  rw [hlimits]
  cases hcap : app.config.tenantMaxConnections with
  | none => exact nofun
  | some cap =>
    have hpos : cap ≠ 0 := by
      intro hzero
      rw [hcap, hzero] at happ
      exact happ rfl
    simp [Semaphore.tryAcquire, hpos]

theorem admitted_of_tenant
    (h : (w.app.acquireTenantPermit c.identity.tenantId).1 ≠ some (.error ())) :
    (Handshake.tenantPermit w c).2.stage = .admitted := by
  unfold Handshake.tenantPermit
  split
  · rfl
  · rfl
  · rename_i hacquired
    rw [hacquired] at h
    exact (h rfl).elim

/-- Where some handshake goes through, a run lets it. -/
theorem let_in {now : ℕ} {ip : IpAddr} {query : WsQuery} (hin : LetsIn E config now ip query) :
    ∃ (w : World E) (c : Session E), Runs config always ⟨w, [.ws c]⟩ ∧ c.stage = .upgraded ∧
      c.query = query ∧ w.app.config = config ∧ w.app.topics = ∅ := by
  obtain ⟨lim, held, hs₁⟩ := lets_ip hin
  obtain ⟨id, hid⟩ := hin.identity
  have h₀ : Runs config always (⟨{ World.init E config with now := now }, []⟩ : ServerState E) :=
    .tail (a := .env now) .refl trivial (by simp [Prog.next, server, boot, World.init])
  have h₁ := run_only (.tail (a := .spawn (.ws ip query)) h₀ trivial rfl) trivial
    (a := .handshake (.ipAdmission [])) hs₁
  have h₂ := run_only h₁ trivial (a := .handshake .globalPermit) rfl
  have hfree : (AppState.new E config).connectionLimit.tryAcquire =
      some { free := config.maxConnections - 1 } := by
    have hpos := hin.server
    rw [Semaphore.tryAcquire, if_neg (by simp [AppState.new]; omega)]
    rfl
  simp only [Handshake.globalPermit, hfree] at h₂
  have h₃ := run_only h₂ trivial (a := .handshake .authenticate) rfl
  have hid' : wsIdentity (AppState.new E config).auth now query = .ok id := hid
  simp only [Handshake.authenticate, Session.arrive, hid'] at h₃
  have h₄ := run_only h₃ trivial (a := .handshake .tenantPermit) rfl
  refine ⟨_, _, run_only h₄ trivial (a := .handshake (.upgrade true)) (if_pos ?_), rfl,
    Handshake.tenantPermit_framed.query, Handshake.tenantPermit_framed.config,
    congrArg Wiring.topics Handshake.tenantPermit_framed.wiring⟩
  exact admitted_of_tenant (lets_tenant hin.tenant rfl)

theorem plain_letsIn {config : Config} (hlimits : IpLimiter.fromConfig (F := Ext.plain.F) config = none)
    (hserver : 0 < config.maxConnections)
    (hauth : AuthVerifier.fromConfig (E := Ext.plain) config = none)
    (htenant : config.tenantMaxConnections ≠ some 0) :
    LetsIn Ext.plain config 0 (.v4 1) ⟨"", none, none, none⟩ := by
  refine ⟨fun lim hl => ?_, hserver, ⟨⟨"anonymous", "default"⟩, by rw [hauth]; rfl⟩, htenant⟩
  rw [hlimits] at hl
  cases hl

end WsServer
