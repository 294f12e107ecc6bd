import WsServer.Lib.Isolation
import WsServer.Server

/-! The quotas of the tenants (`state.rs`). Permits and rate buckets lie in two tables that are filled as
    tenants turn up. A call reads and writes the entries of its own tenant alone, so a tenant gets the
    answers it would get by itself, and never holds more permits than the cap. -/

namespace WsServer

open Lib

variable {E : Ext} {config : Config}

/-- `acquire_tenant_permit`, the drop of a permit, and `check_tenant_rate` at a point in time. -/
inductive QuotaCall where
  | acquire (tenantId : String)
  | drop (tenantId : String)
  | check (now : ℕ) (tenantId : String)
  deriving DecidableEq

def QuotaCall.tenantId : QuotaCall → String
  | .acquire tenantId | .drop tenantId | .check _ tenantId => tenantId

inductive QuotaResult where
  | acquired (r : Option (Except Unit Unit))
  | dropped
  | checked (admitted : Bool)

/-- The shared state, and the tenants of the permits that are out. -/
structure Quotas (E : Ext) where
  app : AppState E
  held : List String

namespace Quotas

def new (E : Ext) (config : Config) : Quotas E := { app := AppState.new E config, held := [] }

/-- Only a permit that is held can be dropped. -/
def call (q : Quotas E) : QuotaCall → Option (QuotaResult × Quotas E)
  | .acquire tenantId =>
    let r := q.app.acquireTenantPermit tenantId
    some (.acquired r.1,
      { app := r.2, held := match r.1 with
        | some (.ok ()) => tenantId :: q.held
        | _ => q.held })
  | .drop tenantId =>
    if tenantId ∈ q.held then
      some (.dropped,
        { app := q.app.releaseTenantPermit tenantId, held := q.held.erase tenantId })
    else none
  | .check now tenantId =>
    let r := q.app.checkTenantRate now tenantId
    some (.checked r.1, { q with app := r.2 })

end Quotas

/-- What concerns one tenant: the configuration, its semaphore, its bucket and its permits. -/
structure QuotaView (E : Ext) where
  config : Config
  limit : Option (Option Semaphore)
  rate : Option (Option (TokenBucket E.F))
  held : ℕ

def Quotas.view (tenantId : String) (q : Quotas E) : QuotaView E :=
  { config := q.app.config
    limit := q.app.tenantLimits.map (·.lookup tenantId)
    rate := q.app.tenantRateLimits.map (·.lookup tenantId)
    held := q.held.count tenantId }

/-! ### One call -/

/-- A call leaves the view of every other tenant. -/
theorem Quotas.call_other {q q' : Quotas E} {k : QuotaCall} {r : QuotaResult} {tenantId : String}
    (h : q.call k = some (r, q')) (hne : k.tenantId ≠ tenantId) :
    q'.view tenantId = q.view tenantId := by
  cases k with
  | acquire other =>
    have hne : other ≠ tenantId := hne
    simp only [call, Option.some.injEq, Prod.mk.injEq] at h
    obtain ⟨-, rfl⟩ := h
    unfold AppState.acquireTenantPermit
    split
    · rename_i limits cap hl hcap
      dsimp only
      split
      · simp [view, hl, hne.symm, List.count_cons_of_ne hne]
      · simp [view, hl, hne.symm]
    · rfl
  | drop other =>
    have hne : other ≠ tenantId := hne
    simp only [call, Option.ite_none_right_eq_some, Option.some.injEq, Prod.mk.injEq] at h
    obtain ⟨-, -, rfl⟩ := h
    unfold AppState.releaseTenantPermit
    split
    · rename_i limits hl
      split <;> simp [view, hl, hne.symm, List.count_erase_of_ne hne.symm]
    · rename_i hl
      simp [view, hl, List.count_erase_of_ne hne.symm]
  | check now other =>
    have hne : other ≠ tenantId := hne
    simp only [call, Option.some.injEq, Prod.mk.injEq] at h
    obtain ⟨-, rfl⟩ := h
    unfold AppState.checkTenantRate
    split
    · rename_i limits rate hl hrate
      simp [view, hl, hne.symm]
    · rfl

/-- The quota of one tenant by itself. -/
def QuotaView.call (v : QuotaView E) : QuotaCall → Option (QuotaResult × QuotaView E)
  | .acquire _ =>
    match v.limit, v.config.tenantMaxConnections with
    | some entry, some cap =>
      let sem := entry.getD { free := cap }
      match sem.tryAcquire with
      | some sem' =>
        some (.acquired (some (.ok ())), { v with limit := some (some sem'), held := v.held + 1 })
      | none => some (.acquired (some (.error ())), { v with limit := some (some sem) })
    | _, _ => some (.acquired none, v)
  | .drop _ =>
    if 0 < v.held then
      some (.dropped, { v with limit := v.limit.map (·.map (·.release)), held := v.held - 1 })
    else none
  | .check now _ =>
    match v.rate, v.config.tenantMaxMessagesPerSecond with
    | some entry, some r =>
      let rate : E.F := F64.ofU32 r
      let burst := (v.config.tenantMessageBurst.map F64.ofU32).getD (max rate 1)
      let (admitted, bucket) := (entry.getD (TokenBucket.new now rate burst)).tryConsume now
      some (.checked admitted, { v with rate := some (some bucket) })
    | _, _ => some (.checked true, v)

/-- To its tenant a call is a call of the quota by itself. -/
theorem Quotas.call_view (q : Quotas E) (k : QuotaCall) :
    (q.call k).map (fun r => (r.1, r.2.view k.tenantId)) = (q.view k.tenantId).call k := by
  cases k with
  | acquire tenantId =>
    simp only [call, Option.map_some, QuotaCall.tenantId, QuotaView.call, view,
      AppState.acquireTenantPermit]
    cases hl : q.app.tenantLimits with
    | none => simp [hl]
    | some limits =>
      cases hcap : q.app.config.tenantMaxConnections with
      | none => simp [hl]
      | some cap =>
        simp only [Option.map_some]
        cases (((limits.lookup tenantId).getD { free := cap }).tryAcquire) with
        | none => simp
        | some sem => simp
  | drop tenantId =>
    simp only [call, QuotaCall.tenantId, QuotaView.call, view, List.count_pos_iff]
    by_cases hheld : tenantId ∈ q.held
    · rw [if_pos hheld, if_pos hheld]
      unfold AppState.releaseTenantPermit
      cases hl : q.app.tenantLimits with
      | none => simp [hl]
      | some limits =>
        cases hs : limits.lookup tenantId with
        | none => simp [hl, hs]
        | some sem => simp [hs]
    · rw [if_neg hheld, if_neg hheld]
      rfl
  | check now tenantId =>
    simp only [call, Option.map_some, QuotaCall.tenantId, QuotaView.call, view,
      AppState.checkTenantRate]
    cases hl : q.app.tenantRateLimits with
    | none => simp [hl]
    | some limits =>
      cases hrate : q.app.config.tenantMaxMessagesPerSecond with
      | none => simp [hl]
      | some rate => simp

/-- Calls are separate by tenant. -/
theorem quotas_perUser (E : Ext) :
    PerUser (Quotas.call (E := E)) QuotaCall.tenantId Quotas.view where
  other q k r q' tenantId h hne := Quotas.call_other h hne
  own q t k r q' hview h := by
    have hq := q.call_view k
    rw [hview, ← t.call_view k, h, Option.map_some] at hq
    obtain ⟨⟨r', t'⟩, ht, he⟩ := Option.map_eq_some_iff.mp hq.symm
    rw [Prod.mk.injEq] at he
    obtain ⟨rfl, hv⟩ := he
    exact ⟨t', ht, hv.symm⟩

/-! ### The cap -/

/-- The permits of the tenant are out or free, `cap` in all. -/
def QuotaView.Capped (cap : ℕ) (v : QuotaView E) : Prop :=
  v.config.tenantMaxConnections = some cap ∧
    ∃ entry, v.limit = some entry ∧ v.held + (entry.getD { free := cap }).free = cap

theorem QuotaView.capped_call {cap : ℕ} {v v' : QuotaView E} {k : QuotaCall} {r : QuotaResult}
    (hv : v.Capped cap) (h : v.call k = some (r, v')) : v'.Capped cap := by
  obtain ⟨hconfig, entry, hl, hsum⟩ := hv
  cases k with
  | acquire tenantId =>
    simp only [call, hl, hconfig] at h
    cases hs : (entry.getD { free := cap }).tryAcquire with
    | none =>
      simp only [hs, Option.some.injEq, Prod.mk.injEq] at h
      obtain ⟨-, rfl⟩ := h
      exact ⟨hconfig, _, rfl, hsum⟩
    | some sem =>
      simp only [hs, Option.some.injEq, Prod.mk.injEq] at h
      obtain ⟨-, rfl⟩ := h
      have hfree := Semaphore.tryAcquire_some hs
      refine ⟨hconfig, _, rfl, ?_⟩
      simp only [Option.getD_some]
      omega
  | drop tenantId =>
    simp only [call, Option.ite_none_right_eq_some, Option.some.injEq, Prod.mk.injEq] at h
    obtain ⟨hheld, -, rfl⟩ := h
    cases entry with
    | none => simp only [Option.getD_none] at hsum; omega
    | some sem =>
      refine ⟨hconfig, some sem.release, by rw [hl]; rfl, ?_⟩
      simp only [Option.getD_some, Semaphore.release] at hsum ⊢
      omega
  | check now tenantId =>
    simp only [call] at h
    split at h
    · cases h; exact ⟨hconfig, entry, hl, hsum⟩
    · cases h; exact ⟨hconfig, entry, hl, hsum⟩

/-- A call keeps every tenant within its cap. -/
theorem Quotas.capped_call {cap : ℕ} {q q' : Quotas E} {k : QuotaCall} {r : QuotaResult}
    (hcap : ∀ tenantId, (q.view tenantId).Capped cap) (h : q.call k = some (r, q')) (tenantId : String) :
    (q'.view tenantId).Capped cap := by
  by_cases hk : k.tenantId = tenantId
  · subst hk
    have hview := q.call_view k
    rw [h, Option.map_some] at hview
    exact QuotaView.capped_call (hcap k.tenantId) hview.symm
  · rw [Quotas.call_other h hk]
    exact hcap tenantId

/-! ### The result -/

/-- A tenant gets the answers it gets when all other tenants' calls are deleted, and holds `cap` permits
    at most. -/
theorem quota_independence (config : Config) (calls : List QuotaCall)
    (results : List (QuotaCall × QuotaResult)) (q : Quotas E)
    (h : trace Quotas.call (Quotas.new E config) calls = some (results, q)) :
    (∀ tenantId, ∃ q', trace Quotas.call (Quotas.new E config)
        (calls.filter fun k => k.tenantId = tenantId) =
          some (results.filter (fun r => r.1.tenantId = tenantId), q')) ∧
      ∀ cap, config.tenantMaxConnections = some cap → ∀ tenantId, q.held.count tenantId ≤ cap := by
  refine ⟨fun tenantId => ?_, fun cap hcap tenantId => ?_⟩
  · obtain ⟨q', hq', -⟩ := trace_filter (quotas_perUser E) tenantId rfl h
    exact ⟨q', hq'⟩
  · have hnew : ∀ tenantId, ((Quotas.new E config).view tenantId).Capped cap := by
      intro tenantId
      exact ⟨hcap, none, by simp [Quotas.view, Quotas.new, AppState.new, hcap], by
        simp [Quotas.view, Quotas.new]⟩
    obtain ⟨-, entry, -, hsum⟩ := trace_invariant
      (I := fun q : Quotas E => ∀ tenantId, (q.view tenantId).Capped cap)
      (fun _ _ _ _ hI hs => Quotas.capped_call hI hs) h hnew tenantId
    have hheld : (q.view tenantId).held = q.held.count tenantId := rfl
    omega

/-- One connection and one message a second for each tenant. -/
def Config.tight : Config :=
  { Config.plain with
    tenantMaxConnections := some 1
    tenantMaxMessagesPerSecond := some 1
    tenantMessageBurst := some 1 }

/-- Two tenants in turn. -/
def twoTenants : List QuotaCall :=
  [.acquire "a", .acquire "b", .acquire "a", .check 0 "a", .check 0 "a", .check 0 "b",
    .drop "a", .acquire "a"]

theorem quota_independence_two : ∃ (results : List (QuotaCall × QuotaResult)) (q : Quotas Ext.plain),
    results.length = 8 ∧ q.held.count "a" ≤ 1 ∧
      ∃ q', trace Quotas.call (Quotas.new Ext.plain Config.tight) [.acquire "b", .check 0 "b"] =
        some (results.filter (fun r => r.1.tenantId = "b"), q') := by
  have hsome : ((trace Quotas.call (Quotas.new Ext.plain Config.tight) twoTenants).map
      fun r => decide (r.1.length = 8)) = some true := by decide +kernel
  obtain ⟨⟨results, q⟩, hrun, hlen⟩ := Option.map_eq_some_iff.mp hsome
  obtain ⟨hfilter, hcap⟩ := quota_independence Config.tight twoTenants results q hrun
  exact ⟨results, q, of_decide_eq_true hlen, hcap 1 rfl "a", hfilter "b"⟩

end WsServer
