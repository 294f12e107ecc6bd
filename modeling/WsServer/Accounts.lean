import WsServer.Counters
import WsServer.Permits

/-! The accounts of admission. Every pool is its initial value less what all requests hold of it, and
    the counters of refusals are sums over the stages of all requests, those of the source as long as the
    sums are below `2^64`: one step lemma for each pool, and the sum rule carries it through every run. -/

namespace WsServer

open Lib

variable {E : Ext}

variable {now : ℕ} {g g' : Pools E} {c c' : Session E} {config : Config}

/-- The sum rule for the pools. -/
theorem pool_rule {M : Type*} [AddCommMonoid M] {R : Pools E → M → Prop} {f : Session E → M}
    {p : ServerState E} (init : R (World.init E config).pools 0)
    (arrive : ∀ ip query, f (Session.arrive ip query) = 0)
    (step : ∀ {now g c g' c' r}, Constant config g → Booked config c → PoolStep now g c g' c' →
      R g (f c + r) → R g' (f c' + r))
    (h : Runs config always p) : R p.shared.pools (p.total f) := by
  refine Prog.sum_rule (R := fun w m => R w.pools m) (f := Task.account f) init ?_ ?_ ?_ h
  · rintro (⟨ip, query⟩ | ⟨authorization, request⟩)
    · exact arrive ip query
    · rfl
  · rintro p i l a w' l' r hr - hl (hs : Task.step p.shared i l a = some (w', l')) - hR
    have hbooked := booked_run hr
    cases l with
    | ws c =>
      obtain ⟨c', rfl, hstep⟩ := step_ws hs
      exact step hbooked.shared (hbooked.session i c (session_eq_some.mpr hl)) (pool_step hstep) hR
    | http d =>
      obtain ⟨d', b, rfl, rfl, hstep⟩ := step_http hs
      rw [pools_http hstep]
      exact hR
  · rintro w d w' m hR he
    cases he
    exact hR

/-! ### The permits of the server -/

theorem server_step {max r : ℕ} (hb : Booked config c) (hs : PoolStep now g c g' c')
    (h : g.connectionLimit.free + (c.permit.toNat + r) = max) :
    g'.connectionLimit.free + (c'.permit.toNat + r) = max := by
  cases hs
  case serverTaken sem acquired pools ticket stage stage' =>
    have hfree := Semaphore.tryAcquire_some acquired
    have hbefore : c.permit = false := by
      have hheld := hb.exact (by rw [stage]; rfl)
      rw [stage] at hheld
      exact congrArg Permits.server hheld
    have hnow : c'.permit = true := congrArg Ticket.permit ticket
    subst pools
    simp only [hbefore, hnow, Bool.toNat_true, Bool.toNat_false] at h ⊢
    omega
  case serverDropped held finished pools ticket stage' =>
    have hnow : c'.permit = false := congrArg Ticket.permit ticket
    subst pools
    simp only [held, hnow, Bool.toNat_true, Bool.toNat_false, Semaphore.release] at h ⊢
    omega
  all_goals
    obtain rfl := ‹g' = _›
    have ht := ‹c'.ticket = _›
    rw [show c'.permit = c.permit from congrArg Ticket.permit ht]
    exact h

theorem server_run {p : ServerState E} (h : Runs config always p) :
    p.shared.app.connectionLimit.free + p.count (·.permit) = config.maxConnections :=
  pool_rule (R := fun g m => g.connectionLimit.free + m = config.maxConnections) rfl
    (fun _ _ => rfl) (fun _ hb hs hR => server_step hb hs hR) h

/-! ### The permits of a tenant -/

def Session.holdsTenant (tenantId : String) (c : Session E) : Bool :=
  c.tenantPermit && decide (c.identity.tenantId = tenantId)

/-- The semaphore of a tenant; one that was never used is full. -/
def Pools.tenantFree (g : Pools E) (cap : ℕ) (tenantId : String) : ℕ :=
  (((g.tenantLimits.getD ∅).lookup tenantId).getD { free := cap }).free

theorem holdsTenant_congr {tenantId : String} (hp : c'.tenantPermit = c.tenantPermit)
    (hid : c'.identity = c.identity) : c'.holdsTenant tenantId = c.holdsTenant tenantId := by
  rw [Session.holdsTenant, Session.holdsTenant, hp, hid]

theorem holdsTenant_of_not {tenantId : String} (h : c.tenantPermit = false) :
    c.holdsTenant tenantId = false := by
  rw [Session.holdsTenant, h, Bool.false_and]

theorem tenant_step {cap r : ℕ} {tenantId : String} (hg : Constant config g) (hb : Booked config c)
    (hcap : config.tenantMaxConnections = some cap) (hs : PoolStep now g c g' c')
    (h : g.tenantFree cap tenantId + ((c.holdsTenant tenantId).toNat + r) = cap) :
    g'.tenantFree cap tenantId + ((c'.holdsTenant tenantId).toNat + r) = cap := by
  have before : ∀ {s : Stage}, c.stage = s → s.isOver = false → (s.due config).tenant = false →
      c.tenantPermit = false := by
    rintro s rfl ho hd
    exact (congrArg Permits.tenant (hb.exact ho)).trans hd
  have hlimit : ∀ {n}, g.config.tenantMaxConnections = some n → n = cap := by
    rintro n hn
    rw [hg.configured, hcap] at hn
    exact (Option.some.inj hn).symm
  cases hs
  case tenantTaken limits n sem on limit acquired pools ticket stage stage' =>
    obtain rfl := hlimit limit
    have hfree := Semaphore.tryAcquire_some acquired
    have hnow : c'.tenantPermit = true := congrArg Ticket.tenantPermit ticket
    have hid : c'.identity = c.identity := congrArg Ticket.identity ticket
    subst pools
    rw [holdsTenant_of_not (before stage rfl rfl)] at h
    simp only [Pools.tenantFree, on, Option.getD_some, Session.holdsTenant, hnow, hid, Bool.true_and,
      Bool.toNat_false, Dict.lookup_insert_if] at h hfree ⊢
    by_cases he : tenantId = c.identity.tenantId
    · subst he
      simp
      omega
    · simp [he, Ne.symm he]
      omega
  case tenantRefused limits n on limit pools ticket stage stage' =>
    obtain rfl := hlimit limit
    have hfree : g'.tenantFree n tenantId = g.tenantFree n tenantId := by
      subst pools
      simp only [Pools.tenantFree, on, Option.getD_some, Dict.lookup_insert_if]
      split
      · subst tenantId; rfl
      · rfl
    rw [hfree, holdsTenant_congr (congrArg Ticket.tenantPermit ticket)
      (congrArg Ticket.identity ticket)]
    exact h
  case tenantDropped held finished pools ticket stage' =>
    obtain ⟨limits, hl⟩ := Option.isSome_iff_exists.mp (hg.tenants.trans (by rw [hcap]; rfl))
    have hnow : c'.tenantPermit = false := congrArg Ticket.tenantPermit ticket
    subst pools
    rw [holdsTenant_of_not hnow]
    simp only [Pools.tenantFree, hl, Option.getD_some, Option.map_some, Session.holdsTenant, held,
      Bool.true_and, giveBack] at h ⊢
    by_cases he : c.identity.tenantId = tenantId
    · subst he
      cases hs : limits.lookup c.identity.tenantId with
      | none => simp [hs] at h -- the pool would be full with a permit out
      | some sem => simp [hs, Semaphore.release] at h ⊢; omega
    · cases limits.lookup c.identity.tenantId <;> simpa [he, Ne.symm he] using h
  case identified identity pools ticket stage stage' =>
    have hbefore := before stage rfl rfl
    have hnow : c'.tenantPermit = c.tenantPermit := congrArg Ticket.tenantPermit ticket
    subst pools
    rw [holdsTenant_of_not hbefore] at h
    rw [holdsTenant_of_not (hnow.trans hbefore)]
    exact h
  all_goals
    obtain rfl := ‹g' = _›
    have ht := ‹c'.ticket = _›
    rw [holdsTenant_congr (congrArg Ticket.tenantPermit ht) (congrArg Ticket.identity ht)]
    exact h

theorem tenant_run {p : ServerState E} {cap : ℕ} (hcap : config.tenantMaxConnections = some cap)
    (h : Runs config always p) (tenantId : String) :
    p.shared.pools.tenantFree cap tenantId + p.count (·.holdsTenant tenantId) = cap := by
  refine pool_rule (R := fun g m => g.tenantFree cap tenantId + m = cap) ?_ (fun _ _ => rfl)
    (fun hg hb hs hR => tenant_step hg hb hcap hs hR) h
  simp [Pools.tenantFree, World.init, World.pools, AppState.new, hcap]

/-! ### The permits of an address -/

def Session.holdsIp (ip : IpAddr) (c : Session E) : Bool := c.ipPermit && decide (c.ip = ip)

/-- The limiter never counts more than what is held; under a cap, exactly that. Without a cap the
    counter may wrap. -/
structure IpCounted (ip : IpAddr) (lim : IpLimiter E.F) (m : ℕ) : Prop where
  le : (lim.concurrentOf ip).toNat ≤ m
  capped : ∀ cap, lim.maxConcurrent = some cap → (lim.concurrentOf ip).toNat = m ∧ m ≤ cap.toNat

theorem IpCounted.congr {ip : IpAddr} {lim lim' : IpLimiter E.F} {m : ℕ} (h : IpCounted ip lim m)
    (hmax : lim'.maxConcurrent = lim.maxConcurrent)
    (hcount : lim'.concurrentOf ip = lim.concurrentOf ip) : IpCounted ip lim' m :=
  ⟨hcount ▸ h.le, fun cap hc => hcount ▸ h.capped cap (hmax ▸ hc)⟩

/-- What `try_acquire` does to the counts. -/
theorem concurrentOf_tryAcquire (now : ℕ) (order : List IpAddr) (ip ip' : IpAddr)
    (lim : IpLimiter E.F) : (lim.tryAcquire now order ip).2.concurrentOf ip' =
      if ip' = ip ∧ (lim.tryAcquire now order ip).1 = .ok () then lim.concurrentOf ip' + 1
      else lim.concurrentOf ip' := by
  rw [← (IpLimiter.reapIdle_spec now order lim).2 ip']
  exact IpLimiter.concurrentOf_admission now (lim.reapIdle now order) ip ip'

theorem IpCounted.taken {now m : ℕ} {order : List IpAddr} {ip : IpAddr} {lim lim' : IpLimiter E.F}
    (h : IpCounted ip lim m) (hacq : lim.tryAcquire now order ip = (.ok (), lim')) :
    IpCounted ip lim' (1 + m) := by
  have hcount := concurrentOf_tryAcquire now order ip ip lim
  have hmax := maxConcurrent_tryAcquire now order ip lim
  rw [hacq] at hmax hcount
  rw [if_pos ⟨rfl, rfl⟩] at hcount
  dsimp only at hmax hcount
  refine ⟨?_, fun cap hcap => ?_⟩
  · have hsucc := IpLimiter.toNat_succ_le (lim.concurrentOf ip)
    have hle := h.le
    rw [hcount]
    omega
  · have hspec := IpLimiter.reapIdle_spec now order lim
    have hlt : (lim.concurrentOf ip).toNat < cap.toNat := by
      rw [← hspec.2 ip]
      exact IpLimiter.lt_cap_of_admission (congrArg Prod.fst hacq)
        (hspec.1.trans (hmax.symm.trans hcap))
    obtain ⟨heq, -⟩ := h.capped cap (hmax.symm.trans hcap)
    have hbound := cap.toNat_lt
    rw [hcount, IpLimiter.toNat_succ (by omega)]
    omega

theorem IpCounted.released {now m : ℕ} {ip : IpAddr} {lim : IpLimiter E.F}
    (h : IpCounted ip lim (1 + m)) : IpCounted ip (lim.release now ip) m := by
  have hrel := IpLimiter.toNat_release now lim ip ip
  rw [if_pos rfl] at hrel
  refine ⟨?_, fun cap hcap => ?_⟩
  · have hle := h.le
    omega
  · obtain ⟨heq, hle⟩ := h.capped cap ((IpLimiter.release_maxConcurrent now ip lim).symm.trans hcap)
    omega

theorem holdsIp_congr {ip : IpAddr} (hp : c'.ipPermit = c.ipPermit) (hip : c'.ip = c.ip) :
    c'.holdsIp ip = c.holdsIp ip := by
  rw [Session.holdsIp, Session.holdsIp, hp, hip]

theorem holdsIp_of_ne {ip : IpAddr} (h : c.ip ≠ ip) : c.holdsIp ip = false := by
  rw [Session.holdsIp, decide_eq_false h, Bool.and_false]

theorem ip_step {r : ℕ} {ip : IpAddr} (hb : Booked config c) (hs : PoolStep now g c g' c')
    (h : ∀ lim, g.ipLimiter = some lim → IpCounted ip lim ((c.holdsIp ip).toNat + r)) :
    ∀ lim, g'.ipLimiter = some lim → IpCounted ip lim ((c'.holdsIp ip).toNat + r) := by
  rintro l hl
  cases hs
  case ipTaken order lim lim' on acquired pools ticket stage stage' =>
    subst pools
    obtain rfl := Option.some.inj hl
    have hsame : c'.ip = c.ip := congrArg Ticket.ip ticket
    have hold := h lim on
    by_cases he : c.ip = ip
    · have hbefore : c.ipPermit = false := by
        have hheld := hb.exact (by rw [stage]; rfl)
        rw [stage] at hheld
        exact congrArg Permits.ip hheld
      have hnow : c'.ipPermit = true := congrArg Ticket.ipPermit ticket
      subst ip
      simp only [Session.holdsIp, hbefore, hnow, hsame, decide_true, Bool.and_true, Bool.toNat_false,
        Bool.toNat_true, Nat.zero_add] at hold ⊢
      exact hold.taken acquired
    · -- another address than the one counted
      have hcount := concurrentOf_tryAcquire now order c.ip ip lim
      have hmax := maxConcurrent_tryAcquire now order c.ip lim
      rw [acquired] at hcount hmax
      rw [if_neg fun hc => he hc.1.symm] at hcount
      rw [holdsIp_of_ne he] at hold
      rw [holdsIp_of_ne (hsame ▸ he)]
      exact hold.congr hmax hcount
  case ipRefused order lim lim' reason on acquired pools ticket stage stage' =>
    subst pools
    obtain rfl := Option.some.inj hl
    have hcount := concurrentOf_tryAcquire now order c.ip ip lim
    have hmax := maxConcurrent_tryAcquire now order c.ip lim
    rw [acquired] at hcount hmax
    rw [if_neg (by rintro ⟨-, hok⟩; cases hok)] at hcount
    rw [holdsIp_congr (congrArg Ticket.ipPermit ticket) (congrArg Ticket.ip ticket)]
    exact (h lim on).congr hmax hcount
  case ipDropped held finished pools ticket stage' =>
    subst pools
    obtain ⟨lim, on, rfl⟩ := Option.map_eq_some_iff.mp hl
    have hsame : c'.ip = c.ip := congrArg Ticket.ip ticket
    have hold := h lim on
    by_cases he : c.ip = ip
    · have hnow : c'.ipPermit = false := congrArg Ticket.ipPermit ticket
      subst ip
      simp only [Session.holdsIp, held, hnow, hsame, decide_true, Bool.and_true, Bool.toNat_false,
        Bool.toNat_true, Nat.zero_add] at hold ⊢
      exact hold.released
    · -- another address than the one counted
      have hcount := IpLimiter.concurrentOf_release now lim c.ip ip
      rw [if_neg fun hc => he hc.1.symm] at hcount
      rw [holdsIp_of_ne he] at hold
      rw [holdsIp_of_ne (hsame ▸ he)]
      exact hold.congr (IpLimiter.release_maxConcurrent now c.ip lim) hcount
  all_goals
    obtain rfl := ‹g' = _›
    have ht := ‹c'.ticket = _›
    rw [holdsIp_congr (congrArg Ticket.ipPermit ht) (congrArg Ticket.ip ht)]
    exact h l hl

theorem ip_run {p : ServerState E} (h : Runs config always p) (ip : IpAddr) :
    ∀ lim, p.shared.app.ipLimiter = some lim → IpCounted ip lim (p.count (·.holdsIp ip)) := by
  refine pool_rule (R := fun g m => ∀ lim, g.ipLimiter = some lim → IpCounted ip lim m) ?_
    (fun _ _ => rfl) (fun _ hb hs hR => ip_step hb hs hR) h
  rintro lim hl
  have hempty : lim.states = ∅ := IpLimiter.fromConfig_states hl
  have hzero : lim.concurrentOf ip = 0 := by simp [IpLimiter.concurrentOf, hempty]
  exact ⟨by rw [hzero]; exact le_rfl, fun cap _ => by rw [hzero]; exact ⟨rfl, Nat.zero_le _⟩⟩

/-! ### Refusals -/

theorem rejections_step {r : ℕ × ℕ × ℕ × ℕ} (hs : PoolStep now g c g' c')
    (h : g.rejections = c.stage.rejections + r) : g'.rejections = c'.stage.rejections + r := by
  cases hs
  case kindCounted k pools ticket stage stage' =>
    rw [stage] at h
    rw [pools, stage']
    simp only [h, Stage.rejections, zero_add]
    exact add_comm _ _
  case rejectedCounted k pools ticket stage stage' =>
    rw [stage] at h
    rw [pools, stage']
    simp only [h, Stage.rejections]
    rw [add_comm _ (1, 0, 0, 0), add_assoc]
  case quiet pools ticket taken rejections finished =>
    rw [pools, rejections]
    exact h
  all_goals
    obtain rfl := ‹g' = _›
    simp_all [Stage.rejections]

theorem rejections_run {p : ServerState E} (h : Runs config always p) :
    p.shared.app.metrics.rejections = p.total fun c => c.stage.rejections :=
  pool_rule (R := fun g m => g.rejections = m) rfl (fun _ _ => rfl)
    (fun _ _ hs hR => rejections_step hs hR) h

/-! ### The end of a request -/

/-- The request with no permit left. -/
def Session.cleared (c : Session E) : Session E :=
  { c with ipPermit := false, permit := false, tenantPermit := false }

/-- Request `i` drops a permit. -/
def dropsOf (i : ℕ) (_ : ServerState E) : ServerAct E → Prop
  | .run j (.handshake .dropIp) | .run j (.handshake .dropGlobal)
  | .run j (.handshake .dropTenant) => j = i
  | _ => False

/-- By drops alone request `i` becomes `d`. -/
def DropsTo (p : ServerState E) (i : ℕ) (d : Session E) : Prop :=
  ∃ w, Reach (server E).next (dropsOf i) p ⟨w, p.threads.set i (.ws d)⟩

variable {p : ServerState E} {i : ℕ}

/-- A permit that is held can be dropped, one that is not need not be. -/
theorem dropsTo_one {b : HandshakeAct} (hc : p.session i = some c)
    (hb : dropsOf i p (.run i (.handshake b)))
    (h : (∃ w, Handshake.step p.shared c b = some (w, c')) ∨ c' = c) : DropsTo p i c' := by
  have hl := session_eq_some.mp hc
  rcases h with ⟨w, hs⟩ | rfl
  · refine ⟨w, .tail .refl hb ?_⟩
    simp [Prog.next, server, Task.step, Session.step, hl, hs]
  · obtain ⟨hlt, hget⟩ := List.getElem?_eq_some_iff.mp hl
    refine ⟨p.shared, ?_⟩
    rw [← hget, List.set_getElem_self hlt]
    exact .refl

theorem DropsTo.trans {d e : Session E} (hc : p.session i = some c) (h : DropsTo p i d)
    (h' : ∀ q : ServerState E, q.session i = some d → DropsTo q i e) : DropsTo p i e := by
  have hlt := (List.getElem?_eq_some_iff.mp (session_eq_some.mp hc)).1
  obtain ⟨w, hr⟩ := h
  obtain ⟨w', hr'⟩ := h' ⟨w, p.threads.set i (.ws d)⟩
    (session_eq_some.mpr (List.getElem?_set_self hlt))
  rw [List.set_set] at hr'
  exact ⟨w', hr.trans hr'⟩

/-- A request that is over drops whatever it holds. -/
theorem dropsTo_cleared (hc : p.session i = some c) (hover : c.stage.isOver = true) :
    DropsTo p i c.cleared := by
  have hip : DropsTo p i { c with ipPermit := false } := by
    refine dropsTo_one (b := .dropIp) hc rfl ?_
    cases hheld : c.ipPermit with
    | true => exact .inl ⟨_, by simp [Handshake.step, hover, hheld]; rfl⟩
    | false => exact .inr (by rw [← hheld])
  refine hip.trans hc fun q hq => ?_
  have hserver : DropsTo q i { c with ipPermit := false, permit := false } := by
    refine dropsTo_one (b := .dropGlobal) hq rfl ?_
    cases hheld : c.permit with
    | true => exact .inl ⟨_, by simp [Handshake.step, hover]; rfl⟩
    | false => exact .inr rfl
  refine hserver.trans hq fun q hq => ?_
  refine dropsTo_one (b := .dropTenant) hq rfl ?_
  cases c.tenantPermit with
  | true => exact .inl ⟨_, by simp [Handshake.step, hover]; rfl⟩
  | false => exact .inr rfl

theorem session_set (hc : p.session i = some c) (w : World E) (d : Session E) (j : ℕ) :
    ServerState.session ⟨w, p.threads.set i (.ws d)⟩ j = if j = i then some d else p.session j := by
  have hlt := (List.getElem?_eq_some_iff.mp (session_eq_some.mp hc)).1
  by_cases hj : j = i
  · subst hj
    rw [if_pos rfl]
    exact session_eq_some.mpr (List.getElem?_set_self hlt)
  · rw [if_neg hj, ServerState.session, ServerState.session, List.getElem?_set_ne (Ne.symm hj)]

theorem count_set (f : Session E → Bool) (hc : p.session i = some c) (w : World E) (d : Session E) :
    (f c).toNat + ServerState.count ⟨w, p.threads.set i (.ws d)⟩ f = (f d).toNat + p.count f := by
  obtain ⟨r, h1, h2⟩ := sum_map_set (Task.account fun c => (f c).toNat) (session_eq_some.mp hc)
  simp only [ServerState.count, ServerState.total, h1, h2, Task.account]
  omega

/-- The step that ends a request takes no permit away: it ends with all it was due. -/
theorem held_at_end (hb : Booked config c) (hs : PoolStep now g c g' c')
    (h : c.stage.isOver = false) (h' : c'.stage.isOver = true) :
    c'.ticket.held = c.stage.due config := by
  rw [← hb.exact h]
  cases hs
  case quiet pools ticket taken rejections finished => rw [ticket]
  case rejectedCounted r pools ticket stage stage' => rw [ticket]
  case ipDropped held finished pools ticket stage' => rw [h] at finished; cases finished
  case serverDropped held finished pools ticket stage' => rw [h] at finished; cases finished
  case tenantDropped held finished pools ticket stage' => rw [h] at finished; cases finished
  all_goals
    rename_i stage'
    rw [stage'] at h'
    cases h'

/-! ### The accounts -/

/-- A handshake is in progress up to the upgrade or to the last counter of its refusal. -/
def Stage.inProgress : Stage → Bool
  | .arrived | .ipAdmitted | .permitted | .authenticated | .admitted | .refusing _
  | .counted _ => true
  | _ => false

def Stage.isRefused : Stage → Bool
  | .refused _ => true
  | _ => false

/-- Refused with a 503. -/
def Stage.isFull : Stage → Bool
  | .refused .full => true
  | _ => false

/-- Nothing is left of the request. -/
def Session.isGone (c : Session E) : Bool := c.stage.isOver && decide (c.ticket.held = .none)

/-- `p'` is `p` after request `i` gave back the permits that `c` holds, and no others. -/
structure GaveBack (config : Config) (p p' : ServerState E) (i : ℕ) (c : Session E) : Prop where
  now : p'.session i = some c.cleared
  others : ∀ j, j ≠ i → p'.session j = p.session j
  server : p'.shared.app.connectionLimit.free =
    p.shared.app.connectionLimit.free + c.permit.toNat
  tenants : ∀ cap, config.tenantMaxConnections = some cap → ∀ tenantId,
    p'.shared.pools.tenantFree cap tenantId =
      p.shared.pools.tenantFree cap tenantId + (c.holdsTenant tenantId).toNat
  addresses : ∀ n lim lim' ip, config.ipMaxConcurrent = some n →
    p.shared.app.ipLimiter = some lim → p'.shared.app.ipLimiter = some lim' →
    (lim'.concurrentOf ip).toNat + (c.holdsIp ip).toNat = (lim.concurrentOf ip).toNat

structure AdmissionAccounts (config : Config) (p : ServerState E) : Prop where
  serverCap : p.count (·.permit) ≤ config.maxConnections
  tenantCap : ∀ cap tenantId, config.tenantMaxConnections = some cap →
    p.count (·.holdsTenant tenantId) ≤ cap
  ipCap : ∀ n ip, config.ipMaxConcurrent = some n →
    p.count (·.holdsIp ip) ≤ (UInt32.ofNat n).toNat
  /-- Until it is over, a request holds what its stage is due. -/
  held : ∀ i c, p.session i = some c → c.stage.isOver = false →
    c.ticket.held = c.stage.due config
  /-- When it ends it still does. -/
  ended : ∀ i c a (p' : ServerState E) c', p.session i = some c → c.stage.isOver = false →
    (server E).next p a = some p' → p'.session i = some c' → c'.stage.isOver = true →
    c'.ticket.held = c.stage.due config
  /-- Afterwards it gives back exactly that. -/
  givesBack : ∀ i c, p.session i = some c → c.stage.isOver = true →
    ∃ p', Reach (server E).next (dropsOf i) p p' ∧ GaveBack config p p' i c
  initial : (∀ i c, p.session i = some c → c.isGone = true) →
    p.shared.app.connectionLimit.free = config.maxConnections ∧
    (∀ cap tenantId, config.tenantMaxConnections = some cap →
      p.shared.pools.tenantFree cap tenantId = cap) ∧
    ∀ lim ip, p.shared.app.ipLimiter = some lim → lim.concurrentOf ip = 0
  rejected : (∀ i c, p.session i = some c → c.stage.inProgress = false) →
    p.shared.app.metrics.rejectedConnections = p.count (·.stage.isRefused) ∧
    p.shared.app.metrics.rejectedConnections = p.shared.app.metrics.ipRejected +
      p.shared.app.metrics.authRejected + p.shared.app.metrics.tenantRejected +
      p.count (·.stage.isFull)

theorem ip_held (h : Runs config always p) {n : ℕ} (hn : config.ipMaxConcurrent = some n)
    (ip : IpAddr) {lim : IpLimiter E.F} (hl : p.shared.app.ipLimiter = some lim) :
    (lim.concurrentOf ip).toNat = p.count (·.holdsIp ip) ∧
      p.count (·.holdsIp ip) ≤ (UInt32.ofNat n).toNat := by
  refine (ip_run h ip lim hl).capped _ ?_
  rw [(booked_run h).shared.maxConcurrent hl, hn]
  rfl

theorem gaveBack {w : World E} (h : Runs config always p) (hc : p.session i = some c)
    (hr : Reach (server E).next (dropsOf i) p ⟨w, p.threads.set i (.ws c.cleared)⟩) :
    GaveBack config p ⟨w, p.threads.set i (.ws c.cleared)⟩ i c := by
  have h' : Runs config always ⟨w, p.threads.set i (.ws c.cleared)⟩ := h.trans hr.toAlways
  refine ⟨by rw [session_set hc, if_pos rfl], fun j hj => by rw [session_set hc, if_neg hj], ?_, ?_,
    ?_⟩
  · -- server
    have hcount := count_set (·.permit) hc w c.cleared
    have hb := server_run h
    have ha := server_run h'
    simp only [Session.cleared, Bool.toNat_false] at hcount ha ⊢
    omega
  · -- tenants
    rintro cap hcap tenantId
    have hcount := count_set (·.holdsTenant tenantId) hc w c.cleared
    have hb := tenant_run hcap h tenantId
    have ha := tenant_run hcap h' tenantId
    rw [holdsTenant_of_not (c := c.cleared) rfl, Bool.toNat_false] at hcount
    omega
  · -- addresses
    rintro n lim lim' ip hn hl hl'
    have hcount := count_set (·.holdsIp ip) hc w c.cleared
    rw [show c.cleared.holdsIp ip = false from Bool.false_and _, Bool.toNat_false] at hcount
    rw [(ip_held h hn ip hl).1, (ip_held h' hn ip hl').1]
    omega

theorem initial_of_gone (h : Runs config always p)
    (hgone : ∀ i c, p.session i = some c → c.isGone = true) :
    p.shared.app.connectionLimit.free = config.maxConnections ∧
    (∀ cap tenantId, config.tenantMaxConnections = some cap →
      p.shared.pools.tenantFree cap tenantId = cap) ∧
    ∀ lim ip, p.shared.app.ipLimiter = some lim → lim.concurrentOf ip = 0 := by
  have hnone : ∀ i c, p.session i = some c → c.ticket.held = .none := by
    rintro i c hc
    have hg := hgone i c hc
    rw [Session.isGone, Bool.and_eq_true, decide_eq_true_eq] at hg
    exact hg.2
  refine ⟨?_, fun cap tenantId hcap => ?_, fun lim ip hl => ?_⟩
  · -- server
    have hrun := server_run h
    rwa [count_eq_zero (f := (·.permit)) fun i c hc => congrArg Permits.server (hnone i c hc)]
      at hrun
  · -- tenants
    have hrun := tenant_run hcap h tenantId
    rwa [count_eq_zero fun i c hc =>
      holdsTenant_of_not (congrArg Permits.tenant (hnone i c hc))] at hrun
  · -- addresses
    have hle := (ip_run h ip lim hl).le
    rw [count_eq_zero fun i c hc => ?_, Nat.le_zero] at hle
    · exact UInt32.toNat_inj.mp hle
    · rw [Session.holdsIp, show c.ipPermit = false from congrArg Permits.ip (hnone i c hc),
        Bool.false_and]

/-- A handshake that is not in progress is counted once in all, and once for its kind unless it
    was refused with a 503. -/
theorem rejections_settled {s : Stage} (h : s.inProgress = false) :
    s.rejections.1 = s.isRefused.toNat ∧
      s.rejections.1 = s.rejections.2.1 + s.rejections.2.2.1 + s.rejections.2.2.2 +
        s.isFull.toNat := by
  cases s with
  | refused r => cases r <;> exact ⟨rfl, rfl⟩
  | arrived | ipAdmitted | permitted | authenticated | admitted | refusing | counted => cases h
  | _ => exact ⟨rfl, rfl⟩

theorem rejected_of_settled (h : Runs config always p)
    (hdone : ∀ i c, p.session i = some c → c.stage.inProgress = false) :
    p.shared.app.metrics.rejectedConnections = p.count (·.stage.isRefused) ∧
    p.shared.app.metrics.rejectedConnections = p.shared.app.metrics.ipRejected +
      p.shared.app.metrics.authRejected + p.shared.app.metrics.tenantRejected +
      p.count (·.stage.isFull) := by
  have hpart : ∀ φ : ℕ × ℕ × ℕ × ℕ →+ ℕ, φ p.shared.app.metrics.rejections =
      p.total fun c => φ c.stage.rejections := by
    intro φ
    rw [rejections_run h, total_map]
  have hall : p.shared.app.metrics.rejectedConnections = p.total fun c => c.stage.rejections.1 :=
    hpart (.fst ℕ _)
  have hip : p.shared.app.metrics.ipRejected = p.total fun c => c.stage.rejections.2.1 :=
    hpart ((AddMonoidHom.fst ℕ _).comp (.snd ℕ _))
  have hauth : p.shared.app.metrics.authRejected = p.total fun c => c.stage.rejections.2.2.1 :=
    hpart ((AddMonoidHom.fst ℕ _).comp ((AddMonoidHom.snd ℕ _).comp (.snd ℕ _)))
  have htenant : p.shared.app.metrics.tenantRejected = p.total fun c => c.stage.rejections.2.2.2 :=
    hpart ((AddMonoidHom.snd ℕ _).comp ((AddMonoidHom.snd ℕ _).comp (.snd ℕ _)))
  refine ⟨?_, ?_⟩
  · rw [hall]
    exact total_congr fun i c hc => (rejections_settled (hdone i c hc)).1
  · rw [hall, hip, hauth, htenant, ServerState.count, ← total_add, ← total_add, ← total_add]
    exact total_congr fun i c hc => (rejections_settled (hdone i c hc)).2

theorem ended_holds {a : ServerAct E} {p' : ServerState E} (h : Runs config always p)
    (hc : p.session i = some c) (hover : c.stage.isOver = false)
    (hs : (server E).next p a = some p') (hc' : p'.session i = some c')
    (hover' : c'.stage.isOver = true) : c'.ticket.held = c.stage.due config := by
  have same : p'.session i = some c → False := by
    intro hnow
    rw [hnow, Option.some.injEq] at hc'
    rw [hc', hover'] at hover
    cases hover
  cases progress hs hc with
  | own b d hnow hstep =>
    rw [hnow, Option.some.injEq] at hc'
    subst hc'
    exact held_at_end ((booked_run h).session i c hc) (pool_step hstep) hover hover'
  | other j l l' b hne hnow hstep => exact (same hnow).elim
  | quiet t hnow hw => exact (same hnow).elim

theorem admission_accounts (h : Runs config always p) : AdmissionAccounts config p where
  serverCap := by
    have hrun := server_run h
    omega
  tenantCap cap tenantId hcap := by
    have hrun := tenant_run hcap h tenantId
    omega
  ipCap n ip hn := by
    have hon : p.shared.app.ipLimiter.isSome = true := by
      rw [show p.shared.app.ipLimiter = p.shared.pools.ipLimiter from rfl,
        (booked_run h).shared.limiter_isSome, Config.limitsIp, hn]
      rfl
    obtain ⟨lim, hl⟩ := Option.isSome_iff_exists.mp hon
    exact (ip_held h hn ip hl).2
  held i c hc hover := ((booked_run h).session i c hc).exact hover
  ended _ _ _ _ _ hc hover hs hc' hover' := ended_holds h hc hover hs hc' hover'
  givesBack i c hc hover := by
    obtain ⟨w, hr⟩ := dropsTo_cleared hc hover
    exact ⟨_, hr, gaveBack h hc hr⟩
  initial hgone := initial_of_gone h hgone
  rejected hdone := rejected_of_settled h hdone

/-- Room for one connection. -/
def Config.one : Config := { Config.plain with maxConnections := 1, ipMaxConcurrent := some 1 }

/-- A second handshake from the same address is refused with a 429, a third from elsewhere with a
    503. -/
def oneAndTwoRefused : List (ServerAct Ext.plain) :=
  [.spawn (.ws (.v4 1) ⟨"a", none, none, none⟩), .spawn (.ws (.v4 1) ⟨"a", none, none, none⟩),
    .spawn (.ws (.v4 2) ⟨"a", none, none, none⟩), .run 0 (.handshake (.ipAdmission [])),
    .run 1 (.handshake (.ipAdmission [.v4 1])), .run 0 (.handshake .globalPermit),
    .run 2 (.handshake (.ipAdmission [.v4 1])), .run 2 (.handshake .globalPermit),
    .run 2 (.handshake .countRejected), .run 1 (.handshake .countKind),
    .run 1 (.handshake .countRejected)]

theorem admission_accounts_one : ∃ p : ServerState Ext.plain,
    p.count (·.stage.isRefused) = 2 ∧ AdmissionAccounts Config.one p := by
  have hplay : (play Config.one (fun _ _ => true) oneAndTwoRefused).map
      (fun p : ServerState Ext.plain => decide (p.count (·.stage.isRefused) = 2)) = some true := by
    decide +kernel
  obtain ⟨p, hp, hc⟩ := play_check _ _ _ _ hplay
  exact ⟨p, of_decide_eq_true hc, admission_accounts hp.toAlways⟩

end WsServer
