import WsServer.Reaping
import WsServer.Server

/-! Where reaping shows. A run that drains an address, leaves it for just over `IDLE_TTL` and comes back
    gets the tokens of a new bucket. With a cap of zero every access is refused without `last_seen`
    moving, so an entry can be drained while it is idle, as long as 64 other idle entries are scanned
    before it, and then be reaped at once. -/

namespace WsServer

open Lib

namespace IpLimiter

variable {F : Type} {now : ℕ} {ip : IpAddr} {lim : IpLimiter F}

/-- Every victim is removed, and nothing else. -/
theorem reapRemoves_spec (victims : List IpAddr) (hidle : ∀ ip ∈ victims, ∀ st,
    lim.states.lookup ip = some st → isIdle now st = true) :
    (victims.foldl (reapRemove now) lim).settings = lim.settings ∧
      ∀ ip, (victims.foldl (reapRemove now) lim).states.lookup ip =
        if ip ∈ victims then none else lim.states.lookup ip := by
  induction victims generalizing lim with
  | nil => exact ⟨rfl, fun ip => (if_neg (List.not_mem_nil)).symm⟩
  | cons w victims ih =>
    have hone : (lim.reapRemove now w).settings = lim.settings ∧ ∀ ip,
        (lim.reapRemove now w).states.lookup ip = if ip = w then none else lim.states.lookup ip := by
      unfold reapRemove
      cases hw : lim.states.lookup w with
      | none =>
        refine ⟨rfl, fun ip => ?_⟩
        dsimp only
        split
        · subst ip; exact hw
        · rfl
      | some st =>
        dsimp only
        rw [if_pos (hidle w List.mem_cons_self st hw)]
        exact ⟨rfl, fun ip => Dict.lookup_erase_if _ _ _⟩
    have hidle' : ∀ ip ∈ victims, ∀ st, (lim.reapRemove now w).states.lookup ip = some st →
        isIdle now st = true := by
      intro ip hip st hst
      rw [hone.2, Option.ite_none_left_eq_some] at hst
      exact hidle ip (List.mem_cons_of_mem w hip) st hst.2
    obtain ⟨hsettings, hlookup⟩ := ih hidle'
    refine ⟨hsettings.trans hone.1, fun ip => ?_⟩
    rw [List.foldl_cons, hlookup, hone.2]
    by_cases hip : ip ∈ victims <;> by_cases hw : ip = w <;> simp [hip, hw]

theorem reapIdle_effect (now : ℕ) (order : List IpAddr) (lim : IpLimiter F) :
    (lim.reapIdle now order).settings = lim.settings ∧
      ∀ ip, (lim.reapIdle now order).states.lookup ip =
        if ip ∈ lim.reapScan now order then none else lim.states.lookup ip := by
  refine reapRemoves_spec _ fun ip hip st hst => ?_
  have hmem := (List.mem_filter.mp (List.mem_of_mem_take hip)).2
  simpa only [hst] using hmem

/-- Nothing is idle. -/
def Awake (now : ℕ) (lim : IpLimiter F) : Prop :=
  ∀ ip st, lim.states.lookup ip = some st → isIdle now st = false

theorem awake_zero (lim : IpLimiter F) : lim.Awake 0 := by
  intro ip st _
  simp [isIdle]

theorem Awake.reapIdle (h : lim.Awake now) (order : List IpAddr) : lim.reapIdle now order = lim := by
  have hscan : lim.reapScan now order = [] := by
    unfold reapScan
    rw [List.filter_eq_nil_iff.mpr, List.take_nil]
    intro ip _
    cases hst : lim.states.lookup ip with
    | none => simp
    | some st => simp [h ip st hst]
  rw [IpLimiter.reapIdle, hscan, List.foldl_nil]

theorem Awake.put (h : lim.Awake now) {st : IpState F} (hst : isIdle now st = false) (ip : IpAddr) :
    (lim.put ip st).Awake now := by
  intro ip' st' hst'
  rw [IpLimiter.put, Dict.lookup_insert_if] at hst'
  split at hst'
  · cases hst'; exact hst
  · exact h ip' st' hst'

/-- The order of a scan is any order of the addresses that have an entry. -/
theorem isPerm_keys {order : List IpAddr} (hnodup : order.Nodup)
    (hmem : ∀ ip, ip ∈ order ↔ (lim.states.lookup ip).isSome = true) :
    order.isPerm lim.states.keys = true := by
  rw [List.isPerm_iff, List.perm_ext_iff_of_nodup hnodup lim.states.keys_nodup]
  intro ip
  rw [hmem, AList.lookup_isSome, AList.mem_keys]

theorem isPerm_self (lim : IpLimiter F) : lim.states.keys.isPerm lim.states.keys = true :=
  List.isPerm_iff.mpr (List.Perm.refl _)

variable [F64 F]

theorem entry_of_lookup {st : IpState F} (h : lim.states.lookup ip = some st) :
    lim.entry now ip = st := by
  rw [entry, h, Option.getD_some]

theorem entry_of_none (h : lim.states.lookup ip = none) :
    lim.entry now ip = { concurrent := 0, bucket := TokenBucket.new now lim.refillPerSecond lim.burst,
                         lastSeen := now } := by
  rw [entry, h, Option.getD_none]

/-- What an admission leaves in the table. -/
theorem lookup_admission (now : ℕ) (lim : IpLimiter F) (ip ip' : IpAddr) :
    (lim.admission now ip).2.states.lookup ip' =
      if ip' = ip then
        some (if (lim.admission now ip).1 = .ok () then
          { concurrent := (lim.entry now ip).concurrent + 1
            bucket := (lim.rateCheck now ip).2
            lastSeen := now }
        else
          { concurrent := (lim.entry now ip).concurrent
            bucket := (lim.rateCheck now ip).2
            lastSeen := (lim.entry now ip).lastSeen })
      else lim.states.lookup ip' := by
  unfold admission
  split
  · exact Dict.lookup_insert_if _ _ _ _
  · split <;> exact Dict.lookup_insert_if _ _ _ _

theorem settings_admission (now : ℕ) (lim : IpLimiter F) (ip : IpAddr) :
    (lim.admission now ip).2.settings = lim.settings := by
  unfold admission
  split
  · rfl
  · split <;> rfl

theorem Awake.admission (h : lim.Awake now) (ip : IpAddr) : (lim.admission now ip).2.Awake now := by
  have hentry : isIdle now (lim.entry now ip) = false := by
    unfold entry
    cases hst : lim.states.lookup ip with
    | none => simp [isIdle]
    | some st => exact h ip st hst
  intro ip' st' hst'
  rw [lookup_admission] at hst'
  split at hst'
  · rw [Option.some.injEq] at hst'
    subst hst'
    split
    · simp [isIdle]
    · exact hentry
  · exact h ip' st' hst'

end IpLimiter

variable {F : Type} {K : Type*} [Field K] [LinearOrder K] {v : F → K} {base lim : IpLimiter F}
  {now t : ℕ} {ip : IpAddr} {x : K}

/-- A run of accesses to one address, at one time. -/
def accesses (now : ℕ) (ip : IpAddr) (orders : List (List IpAddr)) : List IpCall :=
  orders.map fun order => .acquire now order ip

/-- No answer blames the rate. -/
def Unthrottled (answers : List (IpCall × IpAnswer)) : Prop :=
  ∀ a ∈ answers, a.2 ≠ some (.error .rateLimited)

variable [F64 F]

/-- An access to the address finds `x` tokens. -/
structure HoldsTokens (v : F → K) (base : IpLimiter F) (now : ℕ) (ip : IpAddr) (x : K)
    (lim : IpLimiter F) :
    Prop where
  settings : lim.settings = base.settings
  owns : base.Owns v now (lim.entry now ip).bucket
  level : ((lim.entry now ip).bucket.view v).level (secs K now) = x

/-- The limiter lets `n` accesses to the address past the rate. -/
def Passes (now : ℕ) (ip : IpAddr) (n : ℕ) (q q' : IpBooks F) : Prop :=
  ∃ orders answers, orders.length = n ∧
    trace IpBooks.call q (accesses now ip orders) = some (answers, q') ∧ Unthrottled answers

theorem Passes.zero {q : IpBooks F} : Passes now ip 0 q q :=
  ⟨[], [], rfl, rfl, fun _ ha => absurd ha List.not_mem_nil⟩

theorem Passes.cons {q q₁ q' : IpBooks F} {n : ℕ} {order : List IpAddr} {r : IpAnswer}
    (hk : q.call (.acquire now order ip) = some (r, q₁)) (hr : r ≠ some (.error .rateLimited))
    (h : Passes now ip n q₁ q') : Passes now ip (n + 1) q q' := by
  obtain ⟨orders, answers, hlength, htrace, hfine⟩ := h
  refine ⟨order :: orders, (.acquire now order ip, r) :: answers, by rw [List.length_cons, hlength],
    trace_step hk htrace, fun a ha => ?_⟩
  rcases List.mem_cons.mp ha with rfl | ha
  · exact hr
  · exact hfine a ha

variable [IsStrictOrderedRing K]

/-- An address without an entry has a full bucket. -/
theorem holds_new (hv : F64.Exact v) (hsettings : lim.settings = base.settings)
    (hnone : lim.states.lookup ip = none) : HoldsTokens v base now ip (max (v base.burst) 1) lim := by
  have hr : lim.refillPerSecond = base.refillPerSecond := congrArg (·.2.2.1) hsettings
  have hb : lim.burst = base.burst := congrArg (·.2.2.2) hsettings
  have hentry : (lim.entry now ip).bucket = TokenBucket.new now base.refillPerSecond base.burst := by
    rw [IpLimiter.entry_of_none hnone, hr, hb]
  refine ⟨hsettings, ?_, ?_⟩
  · rw [hentry]
    exact TokenBucket.fed_new hv now _ _
  · rw [hentry, TokenBucket.level_new hv]

namespace HoldsTokens

omit [IsStrictOrderedRing K] in
/-- Only the settings and the bucket matter. -/
theorem congr {lim' : IpLimiter F} (h : HoldsTokens v base now ip x lim)
    (hsettings : lim'.settings = lim.settings)
    (hbucket : (lim'.entry now ip).bucket = (lim.entry now ip).bucket) :
    HoldsTokens v base now ip x lim' :=
  ⟨hsettings.trans h.settings, hbucket ▸ h.owns, hbucket ▸ h.level⟩

theorem nonneg (h : HoldsTokens v base now ip x lim) : 0 ≤ x := by
  rw [← h.level]
  exact h.owns.level_nonneg

omit [IsStrictOrderedRing K] in
theorem le (h : HoldsTokens v base now ip x lim) : x ≤ max (v base.burst) 1 := by
  rw [← h.level, ← h.owns.capacity]
  exact Bucket.level_le _ _

/-- What an address with an entry holds later. -/
theorem later (h : HoldsTokens v base t ip x lim) (ht : t ≤ now)
    (hsome : (lim.states.lookup ip).isSome = true) :
    HoldsTokens v base now ip (min (x + (secs K now - secs K t) * max (v base.refillPerSecond) 1)
      (max (v base.burst) 1)) lim := by
  obtain ⟨st, hst⟩ := Option.isSome_iff_exists.mp hsome
  have howns := h.owns
  have hlevel := h.level
  rw [IpLimiter.entry_of_lookup hst] at howns hlevel
  refine ⟨h.settings, ?_, ?_⟩
  · rw [IpLimiter.entry_of_lookup hst]
    exact howns.later ht
  · rw [IpLimiter.entry_of_lookup hst, ← Bucket.level_refill howns.rate_nonneg (secs_mono ht), ← hlevel,
      ← howns.rate, ← howns.capacity]
    rfl

/-- An access spends a token exactly when there is one. -/
theorem admission (hv : F64.Exact v) (hrate : base.rateConfigured = true)
    (h : HoldsTokens v base now ip x lim) :
    ((lim.admission now ip).1 ≠ .error .rateLimited ↔ 1 ≤ x) ∧
      (1 ≤ x → HoldsTokens v base now ip (x - 1) (lim.admission now ip).2) := by
  have hconf : lim.rateConfigured = true := (congrArg (·.2.1) h.settings).trans hrate
  have hcheck : lim.rateCheck now ip = (lim.entry now ip).bucket.tryConsume now := by
    rw [IpLimiter.rateCheck, hconf]
    rfl
  obtain ⟨hone, hnext⟩ := TokenBucket.view_tryConsume (v := v) hv h.owns.last
  rw [h.level, ← hcheck] at hone
  have hanswer : (lim.admission now ip).1 ≠ .error .rateLimited ↔
      (lim.rateCheck now ip).1 = true := by
    rw [IpLimiter.admission_result]
    cases (lim.rateCheck now ip).1 with
    | false => simp
    | true =>
      simp only [Bool.true_eq_false, if_false, iff_true]
      split <;> simp
  refine ⟨hanswer.trans hone, fun hx => ?_⟩
  have hlookup := IpLimiter.lookup_admission now lim ip ip
  rw [if_pos rfl] at hlookup
  have hbucket : ((lim.admission now ip).2.entry now ip).bucket =
      ((lim.entry now ip).bucket.tryConsume now).2 := by
    rw [IpLimiter.entry_of_lookup hlookup, ← hcheck]
    split <;> rfl
  refine ⟨(IpLimiter.settings_admission now lim ip).trans h.settings, ?_, ?_⟩
  · rw [hbucket]
    exact h.owns.tryConsume hv
  · rw [hbucket, hnext, ← hcheck, hone.mpr hx, if_pos rfl, Bucket.level]
    have hlevel := h.level
    have hcapacity := h.owns.capacity ▸ h.le
    simp only [Bucket.take, Bucket.refill, hlevel, sub_self, zero_mul, add_zero]
    exact min_eq_left (by linarith)

end HoldsTokens

/-- In the reference every access that is not limited by the rate spends a token. -/
theorem accesses_le (hv : F64.Exact v) (hrate : base.rateConfigured = true)
    {orders : List (List IpAddr)} {q q' : IpBooks F} {answers : List (IpCall × IpAnswer)}
    (h : HoldsTokens v base now ip x q.lim)
    (htrace : trace IpBooks.refCall q (accesses now ip orders) = some (answers, q'))
    (hfine : Unthrottled answers) : (orders.length : K) ≤ x := by
  induction orders generalizing q x answers with
  | nil => simpa using h.nonneg
  | cons order orders ih =>
    obtain ⟨r, q₁, rs, hk, hks, rfl⟩ := trace_cons htrace
    simp only [IpBooks.refCall, Option.some.injEq, Prod.mk.injEq, IpBooks.admitted] at hk
    obtain ⟨rfl, rfl⟩ := hk
    obtain ⟨hone, hnext⟩ := h.admission hv hrate
    have hx := hone.mp fun hr => hfine _ List.mem_cons_self (congrArg some hr)
    have hrest := ih (hnext hx) hks fun a ha => hfine a (List.mem_cons_of_mem _ ha)
    rw [List.length_cons, Nat.cast_add, Nat.cast_one]
    linarith

/-- One access in the limiter. -/
theorem call_spends (hv : F64.Exact v) (hrate : base.rateConfigured = true) {q : IpBooks F}
    {order : List IpAddr} (horder : order.isPerm q.lim.states.keys = true)
    (h : HoldsTokens v base now ip x (q.lim.reapIdle now order)) (hx : 1 ≤ x) :
    ∃ r q', q.call (.acquire now order ip) = some (r, q') ∧ r ≠ some (.error .rateLimited) ∧
      q'.lim = ((q.lim.reapIdle now order).admission now ip).2 ∧
        HoldsTokens v base now ip (x - 1) q'.lim := by
  obtain ⟨hone, hnext⟩ := h.admission hv hrate
  refine ⟨_, _, by rw [IpBooks.call, if_pos horder], ?_, rfl, hnext hx⟩
  intro hr
  exact hone.mpr hx (Option.some.inj hr)

/-- With nothing idle every token can be spent. -/
theorem awake_passes (hv : F64.Exact v) (hrate : base.rateConfigured = true) {n : ℕ} {q : IpBooks F}
    (hawake : q.lim.Awake now) (h : HoldsTokens v base now ip x q.lim) (hn : (n : K) ≤ x) :
    ∃ q', Passes now ip n q q' := by
  induction n generalizing q x with
  | zero => exact ⟨q, .zero⟩
  | succ n ih =>
    rw [Nat.cast_add, Nat.cast_one] at hn
    have hn0 : (0 : K) ≤ n := Nat.cast_nonneg n
    have hreap := hawake.reapIdle q.lim.states.keys
    obtain ⟨r, q₁, hk, hr, hlim, h₁⟩ := call_spends hv hrate q.lim.isPerm_self (hreap.symm ▸ h)
      (by linarith)
    rw [hreap] at hlim
    obtain ⟨q', hpasses⟩ := ih (hlim ▸ hawake.admission ip) h₁ (by linarith)
    exact ⟨q', hpasses.cons hk hr⟩

/-! ### Before anything is idle -/

omit [IsStrictOrderedRing K] in
/-- At time zero the reference does as the limiter. -/
theorem ref_of_zero {calls : List IpCall} {q q' : IpBooks F} {answers : List (IpCall × IpAnswer)}
    (hzero : ∀ k ∈ calls, k.now = 0) (h : trace IpBooks.call q calls = some (answers, q')) :
    trace IpBooks.refCall q calls = some (answers, q') := by
  induction calls generalizing q answers with
  | nil => exact h
  | cons k calls ih =>
    obtain ⟨r, q₁, rs, hk, hks, rfl⟩ := trace_cons h
    refine trace_step ?_ (ih (fun k hk => hzero k (List.mem_cons_of_mem _ hk)) hks)
    have hnow := hzero k List.mem_cons_self
    cases k with
    | acquire now order ip =>
      have hnow : now = 0 := hnow
      subst hnow
      rw [IpBooks.call, Option.ite_none_right_eq_some, IpLimiter.tryAcquire,
        q.lim.awake_zero.reapIdle order] at hk
      exact hk.2
    | drop now ip => exact hk

/-- What the reference gives after a run at time zero. -/
theorem invisible_rest {config : Config} (hinv : ReapInvisible F config)
    (hlim : IpLimiter.fromConfig config = some lim) {calls : List IpCall}
    {answers : List (IpCall × IpAnswer)} {q q' : IpBooks F} {n : ℕ} (hzero : ∀ k ∈ calls, k.now = 0)
    (htrace : trace IpBooks.call { lim := lim, held := [] } calls = some (answers, q))
    (hpasses : Passes now ip n q q') :
    ∃ orders answers' q'', orders.length = n ∧ Unthrottled answers' ∧
      trace IpBooks.refCall q (accesses now ip orders) = some (answers', q'') := by
  obtain ⟨orders, answers', hlength, hrest, hfine⟩ := hpasses
  have htimes : ((calls ++ accesses now ip orders).map IpCall.now).Pairwise (· ≤ ·) := by
    have hlate : ∀ k ∈ accesses now ip orders, k.now = now := by
      intro k hk
      obtain ⟨order, -, rfl⟩ := List.mem_map.mp hk
      rfl
    rw [List.pairwise_map, List.pairwise_append]
    refine ⟨?_, ?_, fun a ha b _ => ?_⟩
    · exact List.pairwise_of_forall_mem_list fun a ha b _ => by rw [hzero a ha]; exact Nat.zero_le _
    · exact List.pairwise_of_forall_mem_list fun a ha b hb => by rw [hlate a ha, hlate b hb]
    · rw [hzero a ha]; exact Nat.zero_le _
  obtain ⟨q'', href⟩ := hinv lim hlim _ _ _ htimes (trace_append htrace hrest)
  exact ⟨orders, answers', q'', hlength, hfine, trace_rest (ref_of_zero hzero htrace) href⟩

/-- The table holds at most this address, and nothing is counted for it. -/
structure Alone (v : F → K) (base : IpLimiter F) (ip : IpAddr) (x : K) (lim : IpLimiter F) : Prop where
  holds : HoldsTokens v base 0 ip x lim
  others : ∀ ip', ip' ≠ ip → lim.states.lookup ip' = none
  zero : (lim.entry 0 ip).concurrent = 0
  seen : (lim.entry 0 ip).lastSeen = 0

theorem Alone.admission_ok (hv : F64.Exact v) (hrate : base.rateConfigured = true)
    (hcap : base.maxConcurrent ≠ some 0) (h : Alone v base ip x lim) (hx : 1 ≤ x) :
    (lim.admission 0 ip).1 = .ok () := by
  have hmax : lim.maxConcurrent = base.maxConcurrent := congrArg (·.1) h.holds.settings
  have hplace : lim.capReached ip 0 = false := by
    rw [Bool.eq_false_iff]
    intro hfull
    obtain ⟨cap, hcap', hle⟩ := (IpLimiter.capReached_iff ip 0 lim).mp hfull
    rw [← IpLimiter.entry_concurrent 0, h.zero] at hle
    rw [UInt32.le_antisymm hle UInt32.zero_le, hmax] at hcap'
    exact hcap hcap'
  have hanswer := (h.holds.admission hv hrate).1.mpr hx
  rw [IpLimiter.admission_result, hplace] at hanswer ⊢
  split at hanswer
  · exact absurd rfl hanswer
  · rename_i hcheck
    rw [if_neg hcheck, if_neg Bool.false_ne_true]

/-- An access and the drop of its permit. -/
theorem Alone.visit (hv : F64.Exact v) (hrate : base.rateConfigured = true)
    (hcap : base.maxConcurrent ≠ some 0) {q : IpBooks F} (h : Alone v base ip x q.lim) (hx : 1 ≤ x) :
    ∃ answers q', trace IpBooks.call q [.acquire 0 q.lim.states.keys ip, .drop 0 ip] =
        some (answers, q') ∧ Alone v base ip (x - 1) q'.lim ∧
      (q'.lim.states.lookup ip).isSome = true := by
  have hok := h.admission_ok hv hrate hcap hx
  have hlookup := IpLimiter.lookup_admission 0 q.lim ip
  have hself := hlookup ip
  rw [if_pos rfl, if_pos hok, h.zero] at hself
  have hacquire : q.call (.acquire 0 q.lim.states.keys ip) =
      some (some (.ok ()), { lim := (q.lim.admission 0 ip).2, held := ip :: q.held }) := by
    rw [IpBooks.call, if_pos q.lim.isPerm_self, IpLimiter.tryAcquire, q.lim.awake_zero.reapIdle,
      IpBooks.admitted, hok]
  have hrelease : (q.lim.admission 0 ip).2.release 0 ip = (q.lim.admission 0 ip).2.put ip
      { concurrent := 0, bucket := (q.lim.rateCheck 0 ip).2, lastSeen := 0 } := by
    have hdown : (if (0 : UInt32) < 0 + 1 then (0 : UInt32) + 1 - 1 else 0 + 1) = 0 := by decide
    rw [IpLimiter.release, hself]
    dsimp only
    rw [hdown]
  have hlookup' : ∀ ip', ((q.lim.admission 0 ip).2.release 0 ip).states.lookup ip' = if ip' = ip then
      some { concurrent := 0, bucket := (q.lim.rateCheck 0 ip).2, lastSeen := 0 }
      else q.lim.states.lookup ip' := by
    intro ip'
    rw [hrelease, IpLimiter.put, Dict.lookup_insert_if, hlookup]
    split <;> rfl
  have hself' := hlookup' ip
  rw [if_pos rfl] at hself'
  have hdrop : IpBooks.call { lim := (q.lim.admission 0 ip).2, held := ip :: q.held } (.drop 0 ip) =
      some (none, { lim := (q.lim.admission 0 ip).2.release 0 ip, held := q.held }) := by
    rw [IpBooks.call, IpBooks.drop, if_pos List.mem_cons_self, List.erase_cons_head]
  refine ⟨_, _, trace_step hacquire (trace_step hdrop rfl),
    ⟨((h.holds.admission hv hrate).2 hx).congr ?_ ?_, fun ip' hne => ?_, ?_, ?_⟩, ?_⟩
  · rw [hrelease]
    rfl
  · rw [IpLimiter.entry_of_lookup hself', IpLimiter.entry_of_lookup hself]
  · rw [hlookup', if_neg hne]
    exact h.others ip' hne
  · rw [IpLimiter.entry_of_lookup hself']
  · rw [IpLimiter.entry_of_lookup hself']
  · rw [hself']
    rfl

/-- All tokens of an address but some are spent at time zero. -/
theorem Alone.visits (hv : F64.Exact v) (hrate : base.rateConfigured = true)
    (hcap : base.maxConcurrent ≠ some 0) {n : ℕ} {q : IpBooks F} (h : Alone v base ip x q.lim)
    (hn : ((n + 1 : ℕ) : K) ≤ x) :
    ∃ calls answers q', (∀ k ∈ calls, k.now = 0) ∧
      trace IpBooks.call q calls = some (answers, q') ∧
        Alone v base ip (x - (n + 1 : ℕ)) q'.lim ∧ (q'.lim.states.lookup ip).isSome = true := by
  have hzero : ∀ order, ∀ k ∈ [IpCall.acquire 0 order ip, .drop 0 ip], k.now = 0 := by
    intro order k hk
    rcases List.mem_pair.mp hk with rfl | rfl <;> rfl
  induction n generalizing q x with
  | zero =>
    obtain ⟨answers, q', htrace, halone, hsome⟩ := h.visit hv hrate hcap (by simpa using hn)
    exact ⟨_, answers, q', hzero _, htrace, by simpa using halone, hsome⟩
  | succ n ih =>
    have hone : ((n + 1 : ℕ) : K) + 1 ≤ x := by exact_mod_cast hn
    have hpos : (0 : K) ≤ ((n + 1 : ℕ) : K) := Nat.cast_nonneg _
    obtain ⟨answers, q₁, htrace, halone, -⟩ := h.visit hv hrate hcap (by linarith)
    obtain ⟨calls, answers', q', hcalls, htrace', halone', hsome⟩ := ih halone (by linarith)
    refine ⟨_, _, q', ?_, trace_append htrace htrace', ?_, hsome⟩
    · intro k hk
      rcases List.mem_append.mp hk with hk | hk
      · exact hzero _ k hk
      · exact hcalls k hk
    · have hsub : x - 1 - ((n + 1 : ℕ) : K) = x - ((n + 1 + 1 : ℕ) : K) := by
        push_cast
        ring
      rw [← hsub]
      exact halone'

/-! ### Reaping an address -/

/-- `ip` and `rem` have idle entries, and nothing else has one. -/
structure Crowd (now : ℕ) (rem : List IpAddr) (ip : IpAddr) (lim : IpLimiter F) : Prop where
  nodup : (rem ++ [ip]).Nodup
  idle : ∀ o ∈ rem ++ [ip], ∃ st, lim.states.lookup o = some st ∧ IpLimiter.isIdle now st = true
  others : ∀ o, o ∉ rem ++ [ip] → lim.states.lookup o = none

namespace Crowd

variable {rem : List IpAddr}

omit [F64 F] in
theorem isPerm (h : Crowd now rem ip lim) : (rem ++ [ip]).isPerm lim.states.keys = true := by
  refine IpLimiter.isPerm_keys h.nodup fun o => ⟨fun ho => ?_, fun ho => ?_⟩
  · obtain ⟨st, hst, -⟩ := h.idle o ho
    rw [hst]
    rfl
  · by_contra hno
    rw [h.others o hno] at ho
    cases ho

omit [F64 F] in
theorem scan (h : Crowd now rem ip lim) :
    lim.reapScan now (rem ++ [ip]) = (rem ++ [ip]).take 64 := by
  rw [IpLimiter.reapScan, List.filter_eq_self.mpr]
  intro o ho
  obtain ⟨st, hst, hidle⟩ := h.idle o ho
  simp only [hst, hidle]

/-- Alone, the address is reaped and all tokens of a new bucket can be spent. -/
theorem reaped_passes (hv : F64.Exact v) (hrate : base.rateConfigured = true) {n : ℕ} {q : IpBooks F}
    (h : Crowd now [] ip q.lim) (hsettings : q.lim.settings = base.settings)
    (hn : ((n + 1 : ℕ) : K) ≤ max (v base.burst) 1) : ∃ q', Passes now ip (n + 1) q q' := by
  obtain ⟨hsame, hlookup⟩ := q.lim.reapIdle_effect now ([] ++ [ip])
  have hnone : ∀ o, (q.lim.reapIdle now ([] ++ [ip])).states.lookup o = none := by
    intro o
    rw [hlookup, h.scan]
    split
    · rfl
    · rename_i hno
      exact h.others o hno
  have hawake : (q.lim.reapIdle now ([] ++ [ip])).Awake now := by
    intro o st hst
    rw [hnone] at hst
    cases hst
  rw [Nat.cast_add, Nat.cast_one] at hn
  have hpos : (0 : K) ≤ n := Nat.cast_nonneg n
  obtain ⟨r, q₁, hk, hr, hlim, hrest⟩ := call_spends hv hrate h.isPerm
    (holds_new hv (hsame.trans hsettings) (hnone ip)) (by linarith)
  obtain ⟨q', hpasses⟩ := awake_passes (n := n) hv hrate (hlim ▸ hawake.admission ip) hrest
    (by linarith)
  exact ⟨q', hpasses.cons hk hr⟩

/-- An access that the limit of 64 victims keeps from reaping its own address. -/
theorem round (hv : F64.Exact v) (hrate : base.rateConfigured = true)
    (hcap : base.maxConcurrent = some 0) {q : IpBooks F} (h : Crowd now rem ip q.lim)
    (hholds : HoldsTokens v base now ip x q.lim) (hmany : 64 ≤ rem.length) (hx : 1 ≤ x) :
    ∃ r q', q.call (.acquire now (rem ++ [ip]) ip) = some (r, q') ∧
      r ≠ some (.error .rateLimited) ∧ Crowd now (rem.drop 64) ip q'.lim ∧
        HoldsTokens v base now ip (x - 1) q'.lim := by
  obtain ⟨hsame, hlookup⟩ := q.lim.reapIdle_effect now (rem ++ [ip])
  rw [h.scan, List.take_append_of_le_length hmany] at hlookup
  have hsplit : rem.take 64 ++ (rem.drop 64 ++ [ip]) = rem ++ [ip] := by
    rw [← List.append_assoc, List.take_append_drop]
  have hnodup := h.nodup
  rw [← hsplit, List.nodup_append] at hnodup
  obtain ⟨-, hrest, hdisjoint⟩ := hnodup
  have hspared : ∀ o ∈ rem.drop 64 ++ [ip],
      (q.lim.reapIdle now (rem ++ [ip])).states.lookup o = q.lim.states.lookup o := by
    intro o ho
    rw [hlookup, if_neg fun hin => hdisjoint o hin o ho rfl]
  have hip : ip ∈ rem.drop 64 ++ [ip] := List.mem_append_right _ List.mem_cons_self
  obtain ⟨st, hst, hidle⟩ := h.idle ip (List.mem_append_right _ List.mem_cons_self)
  have hst' := (hspared ip hip).trans hst
  have hentry : (q.lim.reapIdle now (rem ++ [ip])).entry now ip = st :=
    IpLimiter.entry_of_lookup hst'
  obtain ⟨r, q', hk, hr, hlim, hholds'⟩ := call_spends hv hrate h.isPerm
    (hholds.congr hsame (by rw [hentry, IpLimiter.entry_of_lookup hst])) hx
  have hrefused : ((q.lim.reapIdle now (rem ++ [ip])).admission now ip).1 ≠ .ok () := by
    intro hok
    have hmax : (q.lim.reapIdle now (rem ++ [ip])).maxConcurrent = some 0 :=
      (congrArg (·.1) (hsame.trans hholds.settings)).trans hcap
    exact absurd (IpLimiter.lt_cap_of_admission hok hmax) (Nat.not_lt_zero _)
  refine ⟨r, q', hk, hr, ⟨hrest, fun o ho => ?_, fun o ho => ?_⟩, hholds'⟩
  · -- idle
    rw [hlim, IpLimiter.lookup_admission, if_neg hrefused, hentry]
    split
    · exact ⟨_, rfl, hidle⟩
    · rw [hspared o ho]
      exact h.idle o (hsplit ▸ List.mem_append_right _ ho)
  · -- others
    rw [hlim, IpLimiter.lookup_admission, if_neg fun he : o = ip => ho (he ▸ hip), hlookup]
    split
    · rfl
    · rename_i hno
      refine h.others o fun hin => ?_
      rw [← hsplit] at hin
      exact (List.mem_append.mp hin).elim hno ho

/-- A crowd of 64 addresses an access hides one address until the last one. -/
theorem passes (hv : F64.Exact v) (hrate : base.rateConfigured = true)
    (hcap : base.maxConcurrent = some 0) {n : ℕ} {q : IpBooks F} (h : Crowd now rem ip q.lim)
    (hholds : HoldsTokens v base now ip x q.lim) (hmany : rem.length = 64 * n) (hx : (n : K) ≤ x) :
    ∃ q', Passes now ip (n + 1) q q' := by
  induction n generalizing q x rem with
  | zero =>
    obtain rfl := List.eq_nil_of_length_eq_zero hmany
    exact h.reaped_passes hv hrate hholds.settings (by simp)
  | succ n ih =>
    rw [Nat.cast_add, Nat.cast_one] at hx
    have hpos : (0 : K) ≤ n := Nat.cast_nonneg n
    obtain ⟨r, q₁, hk, hr, hcrowd, hholds'⟩ :=
      h.round hv hrate hcap hholds (by omega) (by linarith)
    obtain ⟨q', hpasses⟩ := ih hcrowd hholds' (by rw [List.length_drop]; omega) (by linarith)
    exact ⟨q', hpasses.cons hk hr⟩

end Crowd

/-- An address that was refused at time zero and is not used since. -/
def Refused (o : IpAddr) (lim : IpLimiter F) : Prop :=
  ∃ st, lim.states.lookup o = some st ∧ st.concurrent = 0 ∧ st.lastSeen = 0

omit [F64 F] [IsStrictOrderedRing K] [LinearOrder K] [Field K] in
theorem Refused.idle {o : IpAddr} (h : Refused o lim) (hlate : idleTtl < now) :
    ∃ st, lim.states.lookup o = some st ∧ IpLimiter.isIdle now st = true := by
  obtain ⟨st, hst, hzero, hseen⟩ := h
  exact ⟨st, hst, by simp [IpLimiter.isIdle, hzero, hseen, hlate]⟩

/-- With a cap of zero an access is refused. -/
theorem zero_call (q : IpBooks F) (o : IpAddr) (hcap : q.lim.maxConcurrent = some 0)
    (hnone : q.lim.states.lookup o = none) :
    ∃ r q', q.call (.acquire 0 q.lim.states.keys o) = some (r, q') ∧
      q'.lim = (q.lim.admission 0 o).2 ∧ Refused o q'.lim ∧
        ∀ o', o' ≠ o → q'.lim.states.lookup o' = q.lim.states.lookup o' := by
  have hreap := q.lim.awake_zero.reapIdle q.lim.states.keys
  have hlim : (q.lim.tryAcquire 0 q.lim.states.keys o).2 = (q.lim.admission 0 o).2 := by
    rw [IpLimiter.tryAcquire, hreap]
  have hrefused : (q.lim.admission 0 o).1 ≠ .ok () := fun hok =>
    absurd (IpLimiter.lt_cap_of_admission hok hcap) (Nat.not_lt_zero _)
  have hlookup := IpLimiter.lookup_admission 0 q.lim o
  rw [← hlim] at hlookup
  have hself := hlookup o
  rw [if_pos rfl, hlim, if_neg hrefused, ← hlim] at hself
  refine ⟨_, _, by rw [IpBooks.call, if_pos q.lim.isPerm_self], hlim, ⟨_, hself, ?_, ?_⟩,
    fun o' hne => (hlookup o').trans (if_neg hne)⟩
  · rw [IpLimiter.entry_of_none hnone]
  · rw [IpLimiter.entry_of_none hnone]

/-- Addresses that are refused at time zero, one after the other. -/
theorem zero_calls {os : List IpAddr} (hnodup : os.Nodup) {q : IpBooks F}
    (hcap : q.lim.maxConcurrent = some 0) (hnone : ∀ o ∈ os, q.lim.states.lookup o = none) :
    ∃ calls answers q', (∀ k ∈ calls, k.now = 0) ∧
      trace IpBooks.call q calls = some (answers, q') ∧ q'.lim.settings = q.lim.settings ∧
        (∀ o ∈ os, Refused o q'.lim) ∧
          ∀ o, o ∉ os → q'.lim.states.lookup o = q.lim.states.lookup o := by
  induction os generalizing q with
  | nil => exact ⟨[], [], q, nofun, rfl, rfl, nofun, fun _ _ => rfl⟩
  | cons o os ih =>
    rw [List.nodup_cons] at hnodup
    obtain ⟨r, q₁, hk, hlim, hrefused, hothers⟩ :=
      zero_call q o hcap (hnone o List.mem_cons_self)
    have hsettings : q₁.lim.settings = q.lim.settings := by
      rw [hlim, IpLimiter.settings_admission]
    have hnone' : ∀ o' ∈ os, q₁.lim.states.lookup o' = none := by
      intro o' ho'
      rw [hothers o' fun he => hnodup.1 (he ▸ ho')]
      exact hnone o' (List.mem_cons_of_mem o ho')
    obtain ⟨calls, answers, q', hzero, htrace, hsame, hall, hrest⟩ :=
      ih hnodup.2 ((congrArg (·.1) hsettings).trans hcap) hnone'
    refine ⟨_ :: calls, _, q', ?_, trace_step hk htrace, hsame.trans hsettings, ?_, fun o' ho' => ?_⟩
    · -- time
      intro k hk
      rcases List.mem_cons.mp hk with rfl | hk
      · rfl
      · exact hzero k hk
    · -- refused
      intro o' ho'
      rcases List.mem_cons.mp ho' with rfl | ho'
      · unfold Refused
        rw [hrest o' hnodup.1]
        exact hrefused
      · exact hall o' ho'
    · -- the other entries
      rw [hrest o' fun h => ho' (List.mem_cons_of_mem o h)]
      exact hothers o' fun h => ho' (h ▸ List.mem_cons_self)

/-! ### What invisibility needs -/

/-- A moment when everything of time zero is idle. -/
theorem secs_idle_pos : (1 : K) ≤ secs K (idleTtl + 1) - secs K 0 := by
  rw [secs, secs, Nat.cast_zero, zero_div, sub_zero, le_div_iff₀ (by norm_num)]
  norm_num [idleTtl]

/-- A long wait must fill the bucket. -/
theorem capacity_le (hv : F64.Exact v) {config : Config} (hinv : ReapInvisible F config)
    (hlim : IpLimiter.fromConfig config = some lim) (hrate : lim.rateConfigured = true)
    (hcap : lim.maxConcurrent ≠ some 0) {n : ℕ} (hn : max (v lim.burst) 1 = ((n + 1 : ℕ) : K)) :
    max (v lim.burst) 1 ≤ secs K (idleTtl + 1) * max (v lim.refillPerSecond) 1 := by
  have hstates := IpLimiter.fromConfig_states hlim
  have hnone : ∀ o, lim.states.lookup o = none := by
    intro o
    rw [hstates]
    exact AList.lookup_empty o
  have hentry : lim.entry 0 (.v4 0) = _ := IpLimiter.entry_of_none (hnone _)
  have halone : Alone v lim (.v4 0) (max (v lim.burst) 1) lim :=
    ⟨holds_new hv rfl (hnone _), fun o _ => hnone o, by rw [hentry], by rw [hentry]⟩
  obtain ⟨calls, answers, q, hzero, htrace, halone', hsome⟩ :=
    Alone.visits (q := { lim := lim, held := [] }) hv hrate hcap halone hn.ge
  obtain ⟨st, hst⟩ := Option.isSome_iff_exists.mp hsome
  have hcrowd : Crowd (idleTtl + 1) [] (.v4 0) q.lim := by
    have hz := halone'.zero
    have hs := halone'.seen
    rw [IpLimiter.entry_of_lookup hst] at hz hs
    refine ⟨List.nodup_singleton _, fun o ho => ?_, fun o ho => ?_⟩
    · obtain rfl := List.mem_singleton.mp ho
      exact Refused.idle ⟨st, hst, hz, hs⟩ (Nat.lt_succ_self _)
    · exact halone'.others o fun he => ho (List.mem_singleton.mpr he)
  obtain ⟨q', hpasses⟩ := hcrowd.reaped_passes hv hrate halone'.holds.settings hn.ge
  obtain ⟨orders, answers', q'', hlength, hfine, href⟩ :=
    invisible_rest hinv hlim hzero htrace hpasses
  have hle := accesses_le hv hrate (halone'.holds.later (Nat.zero_le _) hsome) href hfine
  rw [hlength, ← hn, sub_self, zero_add, secs, secs, Nat.cast_zero, zero_div, sub_zero] at hle
  exact hle.trans (min_le_left _ _)

/-- `n` addresses beside `0.0.0.0`. -/
def bystanders (n : ℕ) : List IpAddr := (List.range n).map fun i => .v6 (BitVec.ofNat 128 i)

omit [F64 F] [IsStrictOrderedRing K] [LinearOrder K] [Field K] in
theorem bystanders_nodup {n : ℕ} (h : n ≤ 2 ^ 128) : (IpAddr.v4 0 :: bystanders n).Nodup := by
  refine List.nodup_cons.mpr ⟨fun hin => ?_, List.Nodup.map_on ?_ List.nodup_range⟩
  · obtain ⟨i, -, hi⟩ := List.mem_map.mp hin
    cases hi
  · intro i hi j hj he
    have hbits := congrArg BitVec.toNat (IpAddr.v6.inj he)
    rw [List.mem_range] at hi hj
    rwa [BitVec.toNat_ofNat, BitVec.toNat_ofNat, Nat.mod_eq_of_lt (by omega),
      Nat.mod_eq_of_lt (by omega)] at hbits

/-- With a cap of zero an address can be idle, full and in a crowd. -/
theorem exists_crowd (hv : F64.Exact v) {config : Config}
    (hlim : IpLimiter.fromConfig config = some lim) (hrate : lim.rateConfigured = true)
    (hcap : lim.maxConcurrent = some 0) {n : ℕ} (hn : n ≤ 2 ^ 128) :
    ∃ calls answers q, (∀ k ∈ calls, k.now = 0) ∧
      trace IpBooks.call { lim := lim, held := [] } calls = some (answers, q) ∧
        Crowd (idleTtl + 1) (bystanders n) (.v4 0) q.lim ∧
          HoldsTokens v lim (idleTtl + 1) (.v4 0) (max (v lim.burst) 1) q.lim := by
  have hnone : ∀ o, lim.states.lookup o = none := by
    intro o
    rw [IpLimiter.fromConfig_states hlim]
    exact AList.lookup_empty o
  have hnodup := bystanders_nodup hn
  obtain ⟨hout, hrest⟩ := List.nodup_cons.mp hnodup
  obtain ⟨r, q₁, hk, hlim₁, hrefused, hothers⟩ :=
    zero_call { lim := lim, held := [] } (.v4 0) hcap (hnone _)
  have hsettings : q₁.lim.settings = lim.settings := by
    rw [hlim₁, IpLimiter.settings_admission]
  have hnone₁ : ∀ o ∈ bystanders n, q₁.lim.states.lookup o = none := by
    intro o ho
    rw [hothers o fun he => hout (he ▸ ho)]
    exact hnone o
  obtain ⟨calls, answers, q, hzero, htrace, hsame, hall, hleft⟩ :=
    zero_calls hrest ((congrArg (·.1) hsettings).trans hcap) hnone₁
  have hkept := hleft _ hout
  refine ⟨_, _, q, fun k hk => ?_, trace_step hk htrace,
    ⟨(List.perm_append_singleton _ _).nodup_iff.mpr hnodup, fun o ho => ?_, fun o ho => ?_⟩, ?_⟩
  · -- time
    rcases List.mem_cons.mp hk with rfl | hk
    · rfl
    · exact hzero k hk
  · -- idle
    rcases List.mem_append.mp ho with ho | ho
    · exact (hall o ho).idle (Nat.lt_succ_self _)
    · obtain rfl := List.mem_singleton.mp ho
      unfold Refused at hrefused
      rw [← hkept] at hrefused
      exact Refused.idle hrefused (Nat.lt_succ_self _)
  · -- others
    rw [List.mem_append, not_or, List.mem_singleton] at ho
    rw [hleft o ho.1, hothers o ho.2]
    exact hnone o
  · -- tokens
    have hfresh : HoldsTokens v lim 0 (.v4 0) (max (v lim.burst) 1) lim := holds_new hv rfl (hnone _)
    have hspent := hlim₁ ▸ (hfresh.admission hv hrate).2 (le_max_right _ _)
    obtain ⟨st, hst, -⟩ := hrefused
    have hheld : HoldsTokens v lim 0 (.v4 0) (max (v lim.burst) 1 - 1) q.lim := by
      refine hspent.congr hsame ?_
      rw [IpLimiter.entry_of_lookup hst, IpLimiter.entry_of_lookup (hkept.trans hst)]
    have hlate := hheld.later (Nat.zero_le (idleTtl + 1)) (by rw [hkept, hst]; rfl)
    have hgain : 1 * 1 ≤ (secs K (idleTtl + 1) - secs K 0) * max (v lim.refillPerSecond) 1 :=
      mul_le_mul secs_idle_pos (le_max_right _ _) zero_le_one (zero_le_one.trans secs_idle_pos)
    rwa [min_eq_right (by linarith)] at hlate

/-- The cap must not be zero. -/
theorem cap_ne_zero (hv : F64.Exact v) {config : Config} (hinv : ReapInvisible F config)
    (hlim : IpLimiter.fromConfig config = some lim) (hrate : lim.rateConfigured = true) {n : ℕ}
    (hsmall : n ≤ 2 ^ 32) (hn : max (v lim.burst) 1 = (n : K)) : lim.maxConcurrent ≠ some 0 := by
  intro hcap
  obtain ⟨calls, answers, q, hzero, htrace, hcrowd, hholds⟩ :=
    exists_crowd hv hlim hrate hcap (n := 64 * n) (by omega)
  obtain ⟨q', hpasses⟩ := hcrowd.passes hv hrate hcap hholds (by simp [bystanders]) hn.ge
  obtain ⟨orders, answers', q'', hlength, hfine, href⟩ :=
    invisible_rest hinv hlim hzero htrace hpasses
  have hle := accesses_le hv hrate hholds href hfine
  rw [hlength, hn] at hle
  exact absurd (Nat.cast_le.mp hle) (by omega)

/-- Reaping is invisible exactly when an idle bucket is full and the cap is not zero. -/
theorem reapInvisible_iff (hv : F64.Exact v) (config : Config) :
    ReapInvisible F config ↔ config.ReapsFull := by
  refine ⟨fun hinv rate hrate => ?_, invisible_of_reapsFull hv⟩
  obtain ⟨lim, hlim⟩ : ∃ lim : IpLimiter F, IpLimiter.fromConfig config = some lim := by
    simp [IpLimiter.fromConfig, hrate]
  obtain ⟨hmax, hconf, hburst, hrefill⟩ := limiter_numbers hv hlim hrate
  have hsmall : config.ipCapacity rate ≤ 2 ^ 32 := by
    have hrate' := rate.toNat_lt
    unfold Config.ipCapacity
    cases config.ipRateBurst with
    | none => simp; omega
    | some b => have hb := b.toNat_lt; simp; omega
  have hcap := cap_ne_zero hv hinv hlim hconf hsmall hburst
  obtain ⟨n, hn⟩ : ∃ n, config.ipCapacity rate = n + 1 :=
    Nat.exists_eq_succ_of_ne_zero (Nat.ne_of_gt (lt_of_lt_of_le Nat.one_pos (le_max_right _ _)))
  have hle := capacity_le hv hinv hlim hconf hcap (hn ▸ hburst)
  refine ⟨hmax ▸ hcap, ?_⟩
  rw [hburst, hrefill, secs, div_mul_eq_mul_div, le_div_iff₀ (by norm_num)] at hle
  rw [mul_comm (max rate.toNat 1)]
  exact_mod_cast hle

theorem exact_rat : F64.Exact (id : ℚ → ℚ) where
  one := rfl
  add _ _ := rfl
  sub _ _ := rfl
  mul _ _ := rfl
  min _ _ := rfl
  max _ _ := rfl
  le _ _ := Iff.rfl
  ofU32 _ := rfl
  asSecs _ := rfl

/-- One connection a second for each address, and a burst of this size. -/
def Config.burst (n : UInt32) : Config :=
  { Config.plain with ipConnectionRate := some 1, ipRateBurst := some n }

theorem reapInvisible_iff_burst : ReapInvisible ℚ (Config.burst 300) :=
  (reapInvisible_iff exact_rat (Config.burst 300)).mpr (by
    intro rate hrate
    cases hrate
    exact ⟨nofun, by decide⟩)

/-- An address that spends 400 tokens has them back after five minutes of one token a second. -/
theorem reaping_shows : ¬ ReapInvisible ℚ (Config.burst 400) := by
  intro hinv
  have hlim : IpLimiter.fromConfig (F := ℚ) (Config.burst 400) = some _ := rfl
  obtain ⟨-, -, hburst, hrefill⟩ := limiter_numbers exact_rat hlim rfl
  have hcapacity : (Config.burst 400).ipCapacity 1 = 400 := by decide
  rw [hcapacity] at hburst
  have hle := capacity_le exact_rat hinv (n := 399) hlim rfl nofun hburst
  have hone : max (UInt32.toNat 1) 1 = 1 := rfl
  rw [hburst, hrefill, hone] at hle
  norm_num [secs, idleTtl] at hle

end WsServer
