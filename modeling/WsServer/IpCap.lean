import WsServer.IpPermits

/-! The cap of the IP limiter against the configured one. `from_config` keeps the low 32 bits of
    `ip_max_concurrent`, and it is these that `try_acquire` compares with its count. -/

namespace WsServer

open Lib

variable {F : Type} [F64 F] {lim : IpLimiter F} {p : LimiterState F} {ip : IpAddr}

/-- In every run of callers an admission is refused for its concurrency exactly when `v` permits of its
    address are outstanding. -/
def CapEnforced (F : Type) [F64 F] (config : Config) (v : ℕ) : Prop :=
  ∀ lim : IpLimiter F, IpLimiter.fromConfig config = some lim → ∀ p, LimiterRuns lim p →
    ∀ i p' c c', p.threads[i]? = some c → (callers F).next p (.run i .admission) = some p' →
      p'.threads[i]? = some c' →
        (c'.pc = .refused .concurrencyLimited ↔ v ≤ outstanding p c.ip)

/-! ### No rate limit -/

omit [F64 F] in
@[simp] theorem reapRemove_rateConfigured (now : ℕ) (lim : IpLimiter F) (ip : IpAddr) :
    (lim.reapRemove now ip).rateConfigured = lim.rateConfigured := by
  unfold IpLimiter.reapRemove
  split
  · split <;> rfl
  · rfl

@[simp] theorem admission_rateConfigured (now : ℕ) (ip : IpAddr) (lim : IpLimiter F) :
    (lim.admission now ip).2.rateConfigured = lim.rateConfigured := by
  unfold IpLimiter.admission
  split
  · rfl
  · split <;> rfl

omit [F64 F] in
@[simp] theorem release_rateConfigured (now : ℕ) (ip : IpAddr) (lim : IpLimiter F) :
    (lim.release now ip).rateConfigured = lim.rateConfigured := by
  unfold IpLimiter.release
  split <;> rfl

theorem caller_rateConfigured {s s' : LimiterWorld F} {i : ℕ} {c c' : Caller} {a : CallerAct}
    (hs : Caller.step s i c a = some (s', c')) :
    s'.limiter.rateConfigured = s.limiter.rateConfigured := by
  cases a with
  | scan order =>
    simp only [Caller.step] at hs
    split at hs
    · split at hs <;> cases hs
      rfl
    · cases hs
  | remove =>
    simp only [Caller.step] at hs
    split at hs <;> cases hs
    exact reapRemove_rateConfigured _ _ _
  | admission =>
    simp only [Caller.step] at hs
    split at hs
    · have hkept := admission_rateConfigured s.now c.ip s.limiter
      rw [Option.some.injEq, Caller.admission] at hs
      split at hs <;> rename_i hres <;> rw [hres] at hkept <;> cases hs <;> exact hkept
    · cases hs
  | drop =>
    simp only [Caller.step] at hs
    split at hs <;> cases hs
    exact release_rateConfigured _ _ _

theorem rateConfigured_run (h : LimiterRuns lim p) :
    p.shared.limiter.rateConfigured = lim.rateConfigured := by
  refine h.invariant (I := fun (p : LimiterState F) =>
    p.shared.limiter.rateConfigured = lim.rateConfigured) rfl ?_
  rintro p (ip | ⟨i, a⟩ | d) p' - hI - hs
  · cases hs
    exact hI
  · obtain ⟨c, s', c', -, (hstep : Caller.step p.shared i c a = some (s', c')), rfl⟩ :=
      Prog.next_run hs
    exact (caller_rateConfigured hstep).trans hI
  · obtain ⟨s', he, rfl⟩ := Prog.next_env hs
    cases he
    exact hI

/-- What `from_config` makes of the cap. -/
theorem capped {config : Config} {v : ℕ} (hv : config.ipMaxConcurrent = some v)
    (hrate : config.ipConnectionRate = none) (hlim : IpLimiter.fromConfig config = some lim) :
    lim.maxConcurrent = some (UInt32.ofNat v) ∧ lim.rateConfigured = false := by
  simp only [IpLimiter.fromConfig, hv, hrate] at hlim
  cases hlim
  exact ⟨rfl, rfl⟩

/-- Without a rate limit every admission passes the rate check. -/
theorem rateCheck_run (hrate : lim.rateConfigured = false) (h : LimiterRuns lim p) (ip : IpAddr) :
    (p.shared.limiter.rateCheck p.shared.now ip).1 = true := by
  rw [IpLimiter.rateCheck, rateConfigured_run h, hrate]
  rfl

/-- Without a rate limit an admission is refused exactly at the cap that the limiter keeps. -/
theorem refused_at_cap {config : Config} {v : ℕ} (hv : config.ipMaxConcurrent = some v)
    (hlim : IpLimiter.fromConfig config = some lim) (hrate : config.ipConnectionRate = none)
    (h : LimiterRuns lim p) {i : ℕ} {p' : LimiterState F} {c c' : Caller} (hc : p.threads[i]? = some c)
    (hs : (callers F).next p (.run i .admission) = some p') (hc' : p'.threads[i]? = some c') :
    c'.pc = .refused .concurrencyLimited ↔ outstanding p c.ip = v % 2 ^ 32 := by
  obtain ⟨hmax, hconf⟩ := capped hv hrate hlim
  have hcap := (counted_run (IpLimiter.fromConfig_states hlim) h c.ip).cap
  rw [(limiter_accounts hlim h).refused i p' c c' hc hs hc', hcap, hmax]
  simp [rateCheck_run hconf h]

/-! ### A crowd at time zero -/

omit [F64 F] in
/-- Nothing is idle at the start of the clock. -/
theorem reapScan_zero (order : List IpAddr) (lim : IpLimiter F) : lim.reapScan 0 order = [] := by
  rw [IpLimiter.reapScan, List.take_eq_nil_iff, List.filter_eq_nil_iff]
  refine Or.inr fun a _ => ?_
  split
  · simp [IpLimiter.isIdle]
  · exact Bool.false_ne_true

omit [F64 F] in
theorem outstanding_concat (s s' : LimiterWorld F) (ts : List Caller) (c : Caller) (ip : IpAddr) :
    outstanding ⟨s', ts ++ [c]⟩ ip = outstanding ⟨s, ts⟩ ip + c.held ip := by
  simp [outstanding]

/-- The count bounds what is outstanding. -/
theorem outstanding_lt (hempty : lim.states = ∅) (h : LimiterRuns lim p) (ip : IpAddr) :
    outstanding p ip < 2 ^ 32 := by
  rw [← (counted_run hempty h ip).count]
  exact (p.shared.limiter.concurrentOf ip).toNat_lt

/-- One more caller, past its scan. -/
theorem caller_comes (hempty : lim.states = ∅) (h : LimiterRuns lim p) (hzero : p.shared.now = 0)
    (ip : IpAddr) : LimiterRuns lim ⟨p.shared, p.threads ++ [⟨ip, .reaping 0 []⟩]⟩ := by
  have hsame : ∀ pc : CallerPc, (Caller.mk ip pc).isHolding = false →
      ∀ o, outstanding ⟨p.shared, p.threads ++ [⟨ip, pc⟩]⟩ o < 2 ^ 32 := by
    intro pc hpc o
    rw [outstanding_concat p.shared, Caller.held_of_not hpc]
    exact outstanding_lt hempty h o
  have hspawned : LimiterRuns lim ⟨p.shared, p.threads ++ [⟨ip, .called⟩]⟩ := by
    refine Reach.tail (a := .spawn ip) h (fun p' hs => ?_) rfl
    cases hs
    exact hsame .called rfl
  have hscan : (callers F).next ⟨p.shared, p.threads ++ [⟨ip, .called⟩]⟩
      (.run p.threads.length (.scan p.shared.limiter.states.keys)) =
        some ⟨p.shared, p.threads ++ [⟨ip, .reaping 0 []⟩]⟩ := by
    have hperm := List.isPerm_iff.mpr (List.Perm.refl p.shared.limiter.states.keys)
    simp [Prog.next, callers, Caller.step, hzero, reapScan_zero, hperm]
  refine Reach.tail hspawned (fun p' hs => ?_) hscan
  rw [hscan, Option.some.injEq] at hs
  subst hs
  exact hsame (.reaping 0 []) rfl

/-- The admission of the last caller. -/
theorem next_admission (s : LimiterWorld F) (ts : List Caller) (ip : IpAddr) :
    (callers F).next ⟨s, ts ++ [⟨ip, .reaping 0 []⟩]⟩ (.run ts.length .admission) =
      some ⟨(Caller.admission s ⟨ip, .reaping 0 []⟩).1,
        ts ++ [(Caller.admission s ⟨ip, .reaping 0 []⟩).2]⟩ := by
  simp [Prog.next, callers, Caller.step]

theorem admission_now (s : LimiterWorld F) (c : Caller) : (Caller.admission s c).1.now = s.now := by
  unfold Caller.admission
  split <;> rfl

theorem admission_outcome {s : LimiterWorld F} {c : Caller}
    (hcheck : (s.limiter.rateCheck s.now c.ip).1 = true) :
    (Caller.admission s c).2 = { c with pc := .holding } ∨
      (Caller.admission s c).2.pc = .refused .concurrencyLimited := by
  have hres := IpLimiter.admission_result s.now c.ip s.limiter
  rw [hcheck, if_neg (by decide)] at hres
  unfold Caller.admission
  split <;> rename_i hadm <;> rw [hadm] at hres
  · exact Or.inl rfl
  · split at hres <;> cases hres
    exact Or.inr rfl

/-- As many callers of one address can hold a permit as the limiter keeps for its cap. -/
theorem crowd_run {config : Config} {v : ℕ} (hv : config.ipMaxConcurrent = some v)
    (hrate : config.ipConnectionRate = none) (hlim : IpLimiter.fromConfig config = some lim)
    (ip : IpAddr) {m : ℕ} (hm : m ≤ v % 2 ^ 32) :
    ∃ p, LimiterRuns lim p ∧ p.shared.now = 0 ∧ outstanding p ip = m := by
  have hempty := IpLimiter.fromConfig_states hlim
  induction m with
  | zero => exact ⟨_, .refl, rfl, rfl⟩
  | succ m ih =>
    obtain ⟨p, hp, hzero, hout⟩ := ih (by omega)
    -- one more caller comes; the cap is not reached, so it is admitted
    have hcome := caller_comes hempty hp hzero ip
    have hnext := next_admission p.shared p.threads ip
    have hc : (p.threads ++ [⟨ip, .reaping 0 []⟩])[p.threads.length]? = some ⟨ip, .reaping 0 []⟩ := by
      simp
    have hc' : (p.threads ++ [(Caller.admission p.shared ⟨ip, .reaping 0 []⟩).2])[p.threads.length]? =
        some (Caller.admission p.shared ⟨ip, .reaping 0 []⟩).2 := by simp
    have hrefused := refused_at_cap hv hlim hrate hcome hc hnext hc'
    rw [outstanding_concat p.shared, Caller.held_of_not rfl] at hrefused
    have hheld : (Caller.admission p.shared ⟨ip, .reaping 0 []⟩).2 = ⟨ip, .holding⟩ := by
      rcases admission_outcome (c := ⟨ip, .reaping 0 []⟩)
        (rateCheck_run (capped hv hrate hlim).2 hp ip) with hok | hno
      · exact hok
      · have hfull : outstanding p ip + 0 = v % 2 ^ 32 := hrefused.mp hno
        omega
    rw [hheld] at hnext
    have hone : ∀ o, outstanding ⟨(Caller.admission p.shared ⟨ip, .reaping 0 []⟩).1,
        p.threads ++ [⟨ip, .holding⟩]⟩ o = outstanding p o + if o = ip then 1 else 0 := by
      intro o
      rw [outstanding_concat p.shared, Caller.held_of rfl]
    refine ⟨_, hcome.tail (fun p' hs o => ?_) hnext, ?_, ?_⟩
    · rw [hnext, Option.some.injEq] at hs
      subst hs
      rw [hone]
      split
      · subst o
        omega
      · exact outstanding_lt hempty hp o
    · exact (admission_now _ _).trans hzero
    · rw [hone, hout, if_pos rfl]

/-- The caller that comes when the truncated cap is reached is refused. -/
theorem le_of_enforced {config : Config} {v : ℕ} (hv : config.ipMaxConcurrent = some v)
    (hrate : config.ipConnectionRate = none) (henforced : CapEnforced F config v) :
    v ≤ v % 2 ^ 32 := by
  obtain ⟨lim, hlim⟩ : ∃ lim : IpLimiter F, IpLimiter.fromConfig config = some lim := by
    simp [IpLimiter.fromConfig, hv]
  obtain ⟨p, hp, hzero, hout⟩ := crowd_run hv hrate hlim (.v4 0) le_rfl
  have hcome := caller_comes (IpLimiter.fromConfig_states hlim) hp hzero (.v4 0)
  have hnext := next_admission p.shared p.threads (.v4 0)
  have hc : (p.threads ++ [⟨.v4 0, .reaping 0 []⟩])[p.threads.length]? =
      some ⟨.v4 0, .reaping 0 []⟩ := by simp
  have hc' : (p.threads ++ [(Caller.admission p.shared ⟨.v4 0, .reaping 0 []⟩).2])[p.threads.length]? =
      some (Caller.admission p.shared ⟨.v4 0, .reaping 0 []⟩).2 := by simp
  have hsame : outstanding ⟨p.shared, p.threads ++ [⟨.v4 0, .reaping 0 []⟩]⟩ (.v4 0) =
      v % 2 ^ 32 := by
    rw [outstanding_concat p.shared, Caller.held_of_not rfl, ← hout]
    rfl
  have hrefused := (refused_at_cap hv hlim hrate hcome hc hnext hc').mpr hsame
  have hmany := (henforced lim hlim _ hcome _ _ _ _ hc hnext hc').mp hrefused
  rwa [hsame] at hmany

/-- The enforced cap is the configured one exactly when that fits into 32 bits. -/
theorem capEnforced_iff {config : Config} {v : ℕ} (hv : config.ipMaxConcurrent = some v)
    (hrate : config.ipConnectionRate = none) : CapEnforced F config v ↔ v < 2 ^ 32 := by
  constructor
  · intro henforced
    have hle := le_of_enforced hv hrate henforced
    exact lt_of_le_of_lt hle (Nat.mod_lt v (by decide))
  · intro hsmall lim hlim p hp i p' c c' hc hs hc'
    obtain ⟨hmax, -⟩ := capped hv hrate hlim
    have hbound := (counted_run (IpLimiter.fromConfig_states hlim) hp c.ip).bound _ hmax
    have htoNat : (UInt32.ofNat v).toNat = v % 2 ^ 32 := UInt32.toNat_ofNat'
    rw [htoNat] at hbound
    rw [refused_at_cap hv hlim hrate hp hc hs hc']
    omega

theorem capEnforced_onePerIp : CapEnforced ℚ Config.onePerIp 1 :=
  (capEnforced_iff rfl rfl).mpr (by decide)

/-- The low 32 bits of this cap are zero. -/
def Config.hugeCap : Config := { Config.plain with ipMaxConcurrent := some (2 ^ 32) }

/-- The first caller is refused though nobody holds a permit. -/
theorem hugeCap_not_enforced : ¬ CapEnforced ℚ Config.hugeCap (2 ^ 32) := by
  intro henforced
  exact absurd (le_of_enforced rfl rfl henforced) (by decide)

end WsServer
