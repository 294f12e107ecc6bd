import WsServer.Buckets
import WsServer.Counters
import WsServer.Permits
import WsServer.Reaped
import WsServer.Worded

/-! The volume of a tenant. A frame spends a token of its tenant's bucket before it becomes a publish or a
    direct message, so what was carried out and what is still on the way never exceed what was spent.
    Calls over HTTP spend nothing. -/

namespace WsServer

open Lib

variable {E : Ext} {w : World E} {i : ℕ} {c : Session E} {r : World E × Session E}

/-! ### The buckets of the tenants -/

/-- What the rate check of a tenant reads and writes. -/
def World.meters (w : World E) : Option (Dict String (TokenBucket E.F)) × ℕ :=
  (w.app.tenantRateLimits, w.now)

theorem apart_meters : Apart (World.meters (E := E)) where
  queued _ _ _ := rfl
  wired _ _ _ _ := rfl
  pooled _ _ _ _ := rfl
  dropped _ := rfl
  refused _ _ := rfl
  rejected _ := rfl
  listed _ _ _ _ _ := rfl
  accepted _ := rfl
  closed _ := rfl
  written _ := rfl

/-! ### Operations on the way -/

/-- A frame that passed the rate check and whose publish or direct message was not carried out. -/
def ReaderPc.underway : ReaderPc E → ℕ
  | .publishing _ _ | .sending _ _ _ | .directing _ _ => 1
  | _ => 0

/-- The steps that carry out a publish or a direct message. -/
def TaskAct.isOperation : TaskAct → Bool
  | .reader .send | .reader .direct | .call .send | .call .direct => true
  | _ => false

/-- What a step of the reader does to the bucket of its tenant and to what is on the way. -/
inductive Spending (w : World E) (c : Session E) (r : World E × Session E) (a : ReaderAct) : Prop
  | check (ha : (TaskAct.reader a).isOperation = false)
      (meters : r.1.meters =
        (((w.app.checkTenantRate w.now c.identity.tenantId).2).tenantRateLimits, w.now))
      (before : c.reader.underway = 0)
      (after : r.2.reader.underway ≤ (w.app.checkTenantRate w.now c.identity.tenantId).1.toNat)
  | other (meters : r.1.meters = w.meters)
      (underway : r.2.reader.underway + (TaskAct.reader a).isOperation.toNat ≤ c.reader.underway)

theorem underway_sendError {c : Session E} (now : ℕ) (code message : String) :
    (c.sendError now code message).reader.underway = 0 := by
  unfold Session.sendError
  split <;> rfl

theorem handle_meters (f : Inbound) : (Reader.handle w c f).1.meters = w.meters ∧
    (Reader.handle w c f).2.reader.underway ≤ 1 := by
  have hevent : ∀ event, (Reader.handleClientEvent w c event).1.meters = w.meters ∧
      (Reader.handleClientEvent w c event).2.reader.underway ≤ 1 := by
    intro event
    cases event <;> simp only [Reader.handleClientEvent] <;> split
    all_goals first
      | exact ⟨rfl, le_rfl⟩
      | exact ⟨rfl, Nat.zero_le _⟩
      | exact ⟨rfl, (underway_sendError _ _ _).le.trans (Nat.zero_le _)⟩
  cases f <;> simp only [Reader.handle] <;> split
  all_goals first
    | exact hevent _
    | exact ⟨rfl, (underway_sendError _ _ _).le.trans (Nat.zero_le _)⟩

theorem frame_meters (f : Frame) (c' : Session E) : (Reader.frame w i c' f).1.meters = w.meters ∧
    (Reader.frame w i c' f).2.reader.underway = 0 := by
  have hgate : ∀ tooLarge g, (Reader.gate w c' tooLarge g).1.meters = w.meters ∧
      (Reader.gate w c' tooLarge g).2.reader.underway = 0 := by
    intro tooLarge g
    simp only [Reader.gate]
    split
    · exact ⟨rfl, rfl⟩
    · split
      · exact ⟨rfl, underway_sendError _ _ _⟩
      · exact ⟨rfl, rfl⟩
  cases f with
  | text t => exact hgate _ _
  | binary raw => exact hgate _ _
  | ping payload => exact ⟨apart_meters.trySend w i _, rfl⟩
  | pong | close | eof | failure => exact ⟨rfl, rfl⟩

theorem reader_spends {a : ReaderAct} (h : Reader.step w i c a = some r) : Spending w c r a := by
  have quiet : ∀ {a : ReaderAct} {r : World E × Session E}, r.1.meters = w.meters →
      r.2.reader.underway = 0 → (TaskAct.reader a).isOperation = false → Spending w c r a := by
    intro a r hm hr ha
    refine .other hm ?_
    rw [hr, ha]
    exact Nat.zero_le _
  cases a with
  | start =>
    simp only [Reader.step] at h
    split at h <;> cases h
    exact quiet rfl rfl rfl
  | frame f =>
    simp only [Reader.step] at h
    split at h <;> cases h
    obtain ⟨hm, hr⟩ := frame_meters (w := w) (i := i) f { c with frames := c.frames + 1 }
    exact quiet hm hr rfl
  | tenantRate =>
    simp only [Reader.step] at h
    split at h <;> cases h
    rename_i f hr
    obtain ⟨limits, hl⟩ := Reader.checkTenantRate_spec w.app w.now c.identity.tenantId
    have hbefore : c.reader.underway = 0 := by rw [hr]; rfl
    simp only [Reader.tenantRate]
    split
    · -- refused
      rename_i hno
      refine .check rfl rfl hbefore ?_
      dsimp only
      rw [underway_sendError]
      exact Nat.zero_le _
    · -- a token is spent, and the frame may be on its way
      rename_i hyes
      obtain ⟨hm, hunder⟩ := handle_meters (w := { w with
        app := (w.app.checkTenantRate w.now c.identity.tenantId).2 }) (c := c) f
      refine .check rfl hm hbefore ?_
      have hadmitted : (w.app.checkTenantRate w.now c.identity.tenantId).1 = true := by
        simpa using hyes
      rw [hadmitted]
      exact hunder
  | locate =>
    simp only [Reader.step] at h
    split at h <;> cases h
    rename_i topicKey encoded hr
    unfold Reader.locate
    split
    · rename_i ch w' hs
      exact .other (apart_meters.topicSender hs) (by rw [hr]; exact le_rfl)
    · exact quiet rfl rfl rfl
  | send =>
    simp only [Reader.step] at h
    split at h <;> cases h
    rename_i topicKey ch encoded hr
    refine .other ?_ (by rw [hr]; exact le_rfl)
    simp only [Reader.send]
    split
    · exact apart_meters.publish w _ _
    · exact apart_meters.publish w _ _
  | direct =>
    simp only [Reader.step] at h
    split at h <;> cases h
    rename_i target encoded hr
    have hm := apart_meters.sendToClient w target c.identity.tenantId encoded c.identity
    simp only [Reader.direct]
    split
    · refine .other hm ?_
      rw [underway_sendError, hr]
      exact le_rfl
    · exact .other hm (by rw [hr]; exact le_rfl)
  | reply =>
    simp only [Reader.step] at h
    split at h <;> cases h
    exact quiet (apart_meters.sendEncoded w i _ _) rfl rfl
  | limitError =>
    simp only [Reader.step] at h
    split at h <;> cases h
    simp only [Reader.limitError]
    split
    · exact quiet (apart_meters.sendEncoded w i _ _) rfl rfl
    · exact quiet rfl rfl rfl
  | limitClose =>
    simp only [Reader.step] at h
    split at h <;> cases h
    exact quiet (apart_meters.trySend w i _) rfl rfl
  | idleTimeout =>
    simp only [Reader.step] at h
    split at h
    · split at h <;> cases h
      exact quiet (apart_meters.trySend w i _) rfl rfl
    · cases h

/-! ### One step of the server -/

/-- What is on the way for a tenant. -/
def Session.underway (tenantId : String) (c : Session E) : ℕ :=
  if c.identity.tenantId = tenantId then c.reader.underway else 0

def ServerState.underway (p : ServerState E) (tenantId : String) : ℕ :=
  p.total (Session.underway tenantId)

/-- The step carries out a publish or a direct message for the tenant. -/
def ServerState.carries (p : ServerState E) (tenantId : String) : ServerAct E → Bool
  | .run i a => a.isOperation && (p.threads[i]?).any fun l => l.identity.tenantId = tenantId
  | _ => false

theorem session_volume {a : TaskAct} (hc : c.Shaped) (h : Session.step w i c a = some r) :
    (r.1.meters = w.meters ∧ r.2.reader.underway + a.isOperation.toNat ≤ c.reader.underway ∧
        (c.reader ≠ .off → r.2.identity = c.identity)) ∨
      (r.1.meters = (((w.app.checkTenantRate w.now c.identity.tenantId).2).tenantRateLimits, w.now) ∧
        a.isOperation = false ∧
        r.2.reader.underway ≤ (w.app.checkTenantRate w.now c.identity.tenantId).1.toNat ∧
          r.2.identity = c.identity) := by
  have hid := fun hr => identity_kept hc hr h
  have rest : (∀ b, a ≠ .reader b) → a.isOperation = false → r.1.meters = w.meters →
      r.1.meters = w.meters ∧ r.2.reader.underway + a.isOperation.toNat ≤ c.reader.underway ∧
        (c.reader ≠ .off → r.2.identity = c.identity) := by
    intro ha hop hm
    refine ⟨hm, ?_, hid⟩
    rw [hop]
    rcases session_reader h ha with hr | hr | hr <;> rw [hr]
    · exact le_rfl
    · exact Nat.zero_le _
    · exact Nat.zero_le _
  cases a with
  | handshake b => exact .inl (rest nofun rfl (apart_meters.handshake h))
  | setup b => exact .inl (rest nofun rfl (apart_meters.setup h))
  | writer b => exact .inl (rest nofun rfl (apart_meters.writer h))
  | fanout b => exact .inl (rest nofun rfl (apart_meters.fanout h))
  | supervise b => exact .inl (rest nofun rfl (apart_meters.supervise h))
  | call b => cases h
  | reader b =>
    cases reader_spends h with
    | other hm hunder => exact .inl ⟨hm, hunder, hid⟩
    | check ha hm before after => exact .inr ⟨hm, ha, after, hid (reader_on h)⟩

/-- What one step of the server does to the bucket of a tenant, and to what is on the way for it. -/
inductive Metering (tenantId : String) (p p' : ServerState E) (n : ℕ) : Prop
  | other (limits : p'.shared.app.tenantRateLimits = p.shared.app.tenantRateLimits)
      (now : p.shared.now ≤ p'.shared.now) (underway : p'.underway tenantId + n ≤ p.underway tenantId)
  | check (t : String)
      (limits : p'.shared.app.tenantRateLimits =
        (p.shared.app.checkTenantRate p.shared.now t).2.tenantRateLimits)
      (now : p'.shared.now = p.shared.now)
      (underway : p'.underway tenantId + n ≤ p.underway tenantId +
        if t = tenantId then (p.shared.app.checkTenantRate p.shared.now t).1.toNat else 0)

theorem metering {config : Config} {ok : ServerState E → ServerAct E → Prop} {p p' : ServerState E}
    {a : ServerAct E} (hr : Runs config ok p) (h : (server E).next p a = some p') (tenantId : String) :
    Metering tenantId p p' (p.carries tenantId a && !overHttp a).toNat := by
  cases a with
  | spawn request =>
    rw [Prog.next, Option.some.injEq] at h
    subst h
    refine .other rfl le_rfl (le_of_eq ?_)
    have hstart : Task.account (Session.underway tenantId) (Task.start request) = 0 := by
      cases request
      · exact ite_self _
      · rfl
    simp only [ServerState.underway, ServerState.total, server, List.map_append, List.sum_append,
      List.map_cons, List.map_nil, List.sum_singleton, hstart]
    rfl
  | env d =>
    obtain ⟨w', hw, rfl⟩ := Prog.next_env h
    cases hw
    exact .other rfl (Nat.le_add_right _ _) le_rfl
  | run i a =>
    obtain ⟨l, w', l', hl, hs, rfl⟩ := Prog.next_run h
    obtain ⟨m, hbefore, hafter⟩ := sum_map_set (Task.account (Session.underway tenantId)) hl
    have hcarries : ServerState.carries p tenantId (.run i a) =
        (a.isOperation && decide (l.identity.tenantId = tenantId)) := by
      simp only [ServerState.carries, hl, Option.any_some]
    have hunder : p.underway tenantId = Task.account (Session.underway tenantId) l + m := hbefore
    have hunder' : ServerState.underway ⟨w', p.threads.set i l'⟩ tenantId =
        Task.account (Session.underway tenantId) l' + m := hafter l'
    rw [hcarries]
    cases l with
    | http d =>
      obtain ⟨d', b, rfl, rfl, hstep⟩ := step_http hs
      have hm := apart_meters.call hstep
      refine .other (congrArg Prod.fst hm) (congrArg Prod.snd hm).ge ?_
      rw [hunder, hunder', overHttp, Bool.not_true, Bool.and_false]
      exact le_rfl
    | ws c =>
      obtain ⟨c', rfl, hstep⟩ := step_ws hs
      have hhttp : overHttp (E := E) (.run i a) = false := by
        cases a with
        | call b => cases hstep
        | _ => rfl
      rw [hhttp, Bool.not_false, Bool.and_true]
      rcases session_volume (shaped_run hr (session_eq_some.mpr hl)) hstep with
        ⟨hm, hle, hid⟩ | ⟨hm, hop, hle, hid⟩
      · refine .other (congrArg Prod.fst hm) (congrArg Prod.snd hm).ge ?_
        rw [hunder, hunder']
        have hle : c'.reader.underway + a.isOperation.toNat ≤ c.reader.underway := hle
        simp only [Task.account, Task.identity, Session.underway]
        by_cases hoff : c.reader = .off
        · -- a reader that is off has nothing on the way, now or then
          have hzero : c.reader.underway = 0 := by rw [hoff]; rfl
          have hzero' : c'.reader.underway = 0 := by omega
          have hop : a.isOperation = false := by
            have hop : a.isOperation.toNat = 0 := by omega
            simpa using hop
          rw [hzero', hop, Bool.false_and, ite_self]
          simp only [Bool.toNat_false]
          omega
        · have hid : c'.identity = c.identity := hid hoff
          rw [hid]
          by_cases ht : c.identity.tenantId = tenantId
          · simp only [ht, if_true, decide_true, Bool.and_true]
            omega
          · simp only [ht, if_false, decide_false, Bool.and_false, Bool.toNat_false]
            omega
      · refine .check c.identity.tenantId (congrArg Prod.fst hm) (congrArg Prod.snd hm) ?_
        rw [hunder, hunder', hop, Bool.false_and]
        have hid : c'.identity = c.identity := hid
        have hle : c'.reader.underway ≤
            (p.shared.app.checkTenantRate p.shared.now c.identity.tenantId).1.toNat := hle
        simp only [Task.account, Session.underway, hid, Bool.toNat_false]
        split <;> omega

/-! ### The bucket of a tenant -/

/-- The capacity of the tenants' buckets. -/
def Config.tenantCapacity (config : Config) (rate : UInt32) : ℕ :=
  max ((config.tenantMessageBurst.map UInt32.toNat).getD (max rate.toNat 1)) 1

/-- The burst as `check_tenant_rate` computes it. -/
def Config.tenantBurst (F : Type) [F64 F] (config : Config) (rate : UInt32) : F :=
  (config.tenantMessageBurst.map F64.ofU32).getD (max (F64.ofU32 rate) 1)

section
variable {K : Type*} [Field K] [LinearOrder K] [IsStrictOrderedRing K] {v : E.F → K} {config : Config}
  {rate : UInt32} {s n : ℕ} {tenantId : String}

omit [IsStrictOrderedRing K] in
/-- A rate check with a configured rate. -/
theorem checkTenantRate_eq {app : AppState E} {limits : Dict String (TokenBucket E.F)} (now : ℕ)
    (t : String) (hlimits : app.tenantRateLimits = some limits)
    (hrate : app.config.tenantMaxMessagesPerSecond = some rate) :
    let bucket := (limits.lookup t).getD
      (TokenBucket.new now (F64.ofU32 rate) (app.config.tenantBurst E.F rate))
    (app.checkTenantRate now t).1 = (bucket.tryConsume now).1 ∧
      (app.checkTenantRate now t).2.tenantRateLimits =
        some (limits.insert t (bucket.tryConsume now).2) := by
  simp only [AppState.checkTenantRate, hlimits, hrate]
  exact ⟨rfl, rfl⟩

/-- The bucket is in order, and `n` tokens were spent since `s`. -/
structure Drawn (v : E.F → K) (config : Config) (rate : UInt32) (s n now : ℕ)
    (b : TokenBucket E.F) : Prop where
  fed : b.Fed v (F64.ofU32 rate) (config.tenantBurst E.F rate) now
  spent : ((b.view v).refill (secs K now)).Spent (secs K s) n

/-- The same for the bucket of the tenant, if it has one. -/
structure Metered (v : E.F → K) (config : Config) (rate : UInt32) (tenantId : String) (s n : ℕ)
    (w : World E) : Prop where
  since : s ≤ w.now
  limits : ∃ limits, w.app.tenantRateLimits = some limits ∧
    (limits.lookup tenantId = none → n = 0) ∧
      ∀ b, limits.lookup tenantId = some b → Drawn v config rate s n w.now b

variable {w' : World E} {b : TokenBucket E.F} {now now' : ℕ}

/-- From a bucket in order nothing was spent since now. -/
theorem drawn_zero (hb : b.Fed v (F64.ofU32 rate) (config.tenantBurst E.F rate) now) (h : s ≤ now) :
    Drawn v config rate s 0 now b :=
  ⟨hb, Bucket.spent_zero hb.rate_nonneg (secs_mono h)⟩

theorem Drawn.later (h : Drawn v config rate s n now b) (ht : now ≤ now') :
    Drawn v config rate s n now' b := by
  refine ⟨h.fed.later ht, ?_⟩
  rw [← Bucket.refill_refill h.fed.rate_nonneg (secs_mono ht)]
  exact h.spent.refill _

theorem Drawn.tryConsume (hv : F64.Exact v) (h : Drawn v config rate s n now b) :
    Drawn v config rate s (n + (b.tryConsume now).1.toNat) now (b.tryConsume now).2 := by
  refine ⟨h.fed.tryConsume hv, Bucket.Spent.refill ?_ _⟩
  rw [(TokenBucket.view_tryConsume (v := v) hv h.fed.last).2]
  cases (b.tryConsume now).1 with
  | false => exact h.spent
  | true => exact h.spent.take

theorem Metered.later (h : Metered v config rate tenantId s n w) (ht : w.now ≤ w'.now)
    (hlimits : w'.app.tenantRateLimits = w.app.tenantRateLimits) :
    Metered v config rate tenantId s n w' := by
  obtain ⟨limits, hl, hnone, hsome⟩ := h.limits
  exact ⟨h.since.trans ht, limits, hlimits.trans hl, hnone, fun b hb => (hsome b hb).later ht⟩

theorem Metered.check (hv : F64.Exact v) (h : Metered v config rate tenantId s n w)
    (hconfig : w.app.config = config) (hrate : config.tenantMaxMessagesPerSecond = some rate) (t : String)
    (hnow : w'.now = w.now)
    (hlimits : w'.app.tenantRateLimits = (w.app.checkTenantRate w.now t).2.tenantRateLimits) :
    Metered v config rate tenantId s
      (n + if t = tenantId then (w.app.checkTenantRate w.now t).1.toNat else 0) w' := by
  obtain ⟨limits, hl, hnone, hsome⟩ := h.limits
  obtain ⟨hanswer, hnext⟩ := checkTenantRate_eq w.now t hl (by rw [hconfig]; exact hrate)
  rw [hconfig] at hanswer hnext
  refine ⟨h.since.trans hnow.ge, _, hlimits.trans hnext, ?_⟩
  by_cases ht : t = tenantId
  · subst ht
    have hdrawn : Drawn v config rate s n w.now ((limits.lookup t).getD
        (TokenBucket.new w.now (F64.ofU32 rate) (config.tenantBurst E.F rate))) := by
      cases hb : limits.lookup t with
      | none =>
        rw [hnone hb]
        exact drawn_zero (TokenBucket.fed_new hv _ _ _) h.since
      | some b => exact hsome b hb
    rw [if_pos rfl, hanswer, hnow]
    refine ⟨fun hno => ?_, fun b hb => ?_⟩
    · rw [Dict.lookup_insert_if, if_pos rfl] at hno
      cases hno
    · rw [Dict.lookup_insert_if, if_pos rfl, Option.some.injEq] at hb
      subst hb
      exact hdrawn.tryConsume hv
  · rw [if_neg ht, Nat.add_zero, hnow]
    refine ⟨fun hno => ?_, fun b hb => ?_⟩
    · rw [Dict.lookup_insert_if, if_neg (Ne.symm ht)] at hno
      exact hnone hno
    · rw [Dict.lookup_insert_if, if_neg (Ne.symm ht)] at hb
      exact hsome b hb

/-- What was spent in a window is bounded. -/
theorem Metered.le (hv : F64.Exact v) (h : Metered v config rate tenantId s n w) :
    (n : K) ≤ config.tenantCapacity rate + (max rate.toNat 1 : ℕ) * (secs K w.now - secs K s) := by
  have hgain : 0 ≤ secs K w.now - secs K s := sub_nonneg.mpr (secs_mono h.since)
  obtain ⟨limits, -, hnone, hsome⟩ := h.limits
  cases hb : limits.lookup tenantId with
  | none =>
    rw [hnone hb, Nat.cast_zero]
    exact add_nonneg (Nat.cast_nonneg _) (mul_nonneg (Nat.cast_nonneg _) hgain)
  | some b =>
    have hdrawn := hsome b hb
    have hle := hdrawn.spent.le hdrawn.fed.level_nonneg
    have hcapacity : (b.view v).capacity = (config.tenantCapacity rate : K) := by
      rw [hdrawn.fed.capacity, Config.tenantBurst, Config.tenantCapacity]
      cases config.tenantMessageBurst <;> simp [hv.max, hv.ofU32, hv.one]
    have hrate : (b.view v).rate = ((max rate.toNat 1 : ℕ) : K) := by
      rw [hdrawn.fed.rate]
      simp [hv.ofU32]
    rw [Bucket.refill_capacity, Bucket.refill_rate, hcapacity, hrate, mul_comm] at hle
    exact hle

/-! ### Runs -/

theorem Metering.metered {p p' : ServerState E} {m : ℕ} (hv : F64.Exact v)
    (h : Metering tenantId p p' m) (hm : Metered v config rate tenantId s n p.shared)
    (hconfig : p.shared.app.config = config) (hrate : config.tenantMaxMessagesPerSecond = some rate) :
    ∃ n', Metered v config rate tenantId s n' p'.shared ∧
      p'.underway tenantId + m + n ≤ p.underway tenantId + n' := by
  cases h with
  | other limits now underway => exact ⟨n, hm.later now limits, by omega⟩
  | check t limits now underway =>
    exact ⟨_, hm.check hv hconfig hrate t now limits, by omega⟩

theorem config_run {ok : ServerState E → ServerAct E → Prop} {p : ServerState E}
    (h : Runs config ok p) : p.shared.app.config = config := (booked_run h).shared.configured

/-- The bucket of a tenant is in order in every reachable state. -/
theorem metered_run {ok : ServerState E → ServerAct E → Prop} {p : ServerState E} (hv : F64.Exact v)
    (hrate : config.tenantMaxMessagesPerSecond = some rate) (h : Runs config ok p) (tenantId : String) :
    Metered v config rate tenantId p.shared.now 0 p.shared := by
  obtain ⟨n, hm⟩ : ∃ n, Metered v config rate tenantId 0 n p.shared := by
    refine Reach.invariant (I := fun p => ∃ n, Metered v config rate tenantId 0 n p.shared) ?_ ?_ h
    · refine ⟨0, le_rfl, ∅, ?_, fun _ => rfl, fun b hb => ?_⟩
      · simp [boot, World.init, AppState.new, hrate]
      · rw [AList.lookup_empty] at hb
        cases hb
    · rintro p a p' hr ⟨n, hm⟩ - hs
      obtain ⟨n', hm', -⟩ := (metering hr hs tenantId).metered hv hm (config_run hr) hrate
      exact ⟨n', hm'⟩
  obtain ⟨limits, hl, -, hsome⟩ := hm.limits
  exact ⟨le_rfl, limits, hl, fun _ => rfl, fun b hb => drawn_zero (hsome b hb).fed le_rfl⟩

/-- The operations carried out for the tenant, each with its time. -/
def operations (tenantId : String) (p : ServerState E) (a : ServerAct E) (_ : ServerState E) : List ℕ :=
  if p.carries tenantId a then [p.shared.now] else []

/-- No call over HTTP carries out an operation for the tenant. -/
def checked (tenantId : String) (p : ServerState E) (a : ServerAct E) : Bool :=
  !(p.carries tenantId a && overHttp a)

/-- The operations of a run that begins at `p₀`, under a decidable side condition. -/
def VolumeRun (tenantId : String) (ok : ServerState E → ServerAct E → Bool) (p₀ p : ServerState E)
    (ops : List ℕ) : Prop :=
  LogReach (server E).next (operations tenantId) (fun p a => ok p a = true) p₀ (p, ops)

/-- What is carried out was on the way before, or a token was spent on it. -/
theorem volume_run {p₀ p : ServerState E} {ops : List ℕ} (hv : F64.Exact v)
    (hrate : config.tenantMaxMessagesPerSecond = some rate) (h₀ : Runs config always p₀)
    (h : VolumeRun tenantId (checked tenantId) p₀ p ops) :
    ∃ n, Metered v config rate tenantId p₀.shared.now n p.shared ∧
      ops.length + p.underway tenantId ≤ n + p₀.underway tenantId := by
  refine LogReach.invariant (I := fun (p : ServerState E) ops =>
    ∃ n, Metered v config rate tenantId p₀.shared.now n p.shared ∧
      ops.length + p.underway tenantId ≤ n + p₀.underway tenantId) ?_ ?_ h
  · exact ⟨0, metered_run hv hrate h₀ tenantId, by simp⟩
  · rintro p ops a p' hr ⟨n, hm, hle⟩ hok hs
    have hruns : Runs config always p := Reach.trans h₀ hr.reach.toAlways
    obtain ⟨n', hm', hle'⟩ := (metering hruns hs tenantId).metered hv hm (config_run hruns) hrate
    refine ⟨n', hm', ?_⟩
    have hlength : (operations tenantId p a p').length = (p.carries tenantId a && !overHttp a).toNat := by
      unfold checked at hok
      unfold operations
      cases hc : p.carries tenantId a with
      | false => rfl
      | true =>
        rw [hc, Bool.true_and] at hok
        rw [hok]
        rfl
    rw [List.length_append, hlength]
    omega

/-- The volume of a tenant that sends over WebSocket alone, in a window of `d` nanoseconds that opens
    with nothing on the way. -/
theorem volume_cap {p₀ p : ServerState E} {ops : List ℕ} {d : ℕ} (hv : F64.Exact v)
    (hrate : config.tenantMaxMessagesPerSecond = some rate) (h₀ : Runs config always p₀)
    (hopen : p₀.underway tenantId = 0) (h : VolumeRun tenantId (checked tenantId) p₀ p ops)
    (hd : p.shared.now ≤ p₀.shared.now + d) :
    (ops.length : K) ≤ config.tenantCapacity rate + (max rate.toNat 1 : ℕ) * secs K d := by
  obtain ⟨n, hm, hle⟩ := volume_run hv hrate h₀ h
  have hcast : (ops.length : K) ≤ n := Nat.cast_le.mpr (by omega)
  have hwindow : secs K p.shared.now - secs K p₀.shared.now ≤ secs K d := by
    rw [← secs_sub hm.since]
    exact secs_mono (by omega)
  have hgrow : ((max rate.toNat 1 : ℕ) : K) * (secs K p.shared.now - secs K p₀.shared.now) ≤
      (max rate.toNat 1 : ℕ) * secs K d := mul_le_mul_of_nonneg_left hwindow (Nat.cast_nonneg _)
  linarith [hm.le hv]

end

/-- One message a second for each tenant. -/
def Config.slow : Config :=
  { Config.plain with tenantMaxMessagesPerSecond := some 1, tenantMessageBurst := some 1 }

/-- A client of the tenant `default` publishes. -/
def onePublish : List (ServerAct Ext.plain) :=
  subscriberReady ++ steps 0
    [.reader (.frame (.text "\x7b\"kind\":\"publish\",\"payload\":\"hi\"\x7d")),
      .reader .tenantRate, .reader .locate, .reader .send]

theorem volume_cap_one : ∃ (p : ServerState Ext.plain) (ops : List ℕ),
    VolumeRun "default" (checked "default") (boot Ext.plain Config.slow) p ops ∧ ops.length = 1 ∧
      (ops.length : ℚ) ≤ (1 : ℕ) + (1 : ℕ) * secs ℚ 0 := by
  obtain ⟨p, ops, h, hc⟩ := exec_log_check (server Ext.plain).next (operations "default")
    (checked "default") (boot Ext.plain Config.slow) onePublish
    (fun p ops => decide (ops.length = 1 ∧ p.shared.now ≤ 0 + 0)) (by decide +kernel)
  obtain ⟨hlength, hnow⟩ := of_decide_eq_true hc
  exact ⟨p, ops, h, hlength, volume_cap exact_rat rfl .refl rfl h hnow⟩

/-- Calls of the tenant `default` over HTTP. -/
def httpPublishes (n : ℕ) : List (ServerAct Ext.plain) :=
  (List.range n).flatMap fun k =>
    .spawn (.api none (.publish ⟨none, none, "hi"⟩)) ::
      steps k [.call .resolve, .call .locate, .call .send]

/-- Over HTTP nothing bounds the volume. -/
theorem volume_uncapped : ¬ ∀ (config : Config) (rate : UInt32) (tenantId : String)
    (p₀ p : ServerState Ext.plain) (ops : List ℕ) (d : ℕ),
    config.tenantMaxMessagesPerSecond = some rate → Runs config always p₀ →
      VolumeRun tenantId (fun _ _ => true) p₀ p ops → p.shared.now ≤ p₀.shared.now + d →
        (ops.length : ℚ) ≤ config.tenantCapacity rate + (max rate.toNat 1 : ℕ) * secs ℚ d := by
  intro hcapped
  obtain ⟨p, ops, h, hc⟩ := exec_log_check (server Ext.plain).next (operations "default")
    (fun _ _ => true) (boot Ext.plain Config.slow) (httpPublishes 3)
    (fun p ops => decide (ops.length = 3 ∧ p.shared.now ≤ 0 + 0)) (by decide +kernel)
  obtain ⟨hlength, hnow⟩ := of_decide_eq_true hc
  have hle := hcapped Config.slow 1 "default" _ p ops 0 rfl .refl h hnow
  have hcapacity : Config.slow.tenantCapacity 1 = 1 := by decide
  rw [hlength, hcapacity] at hle
  norm_num [secs] at hle

end WsServer
