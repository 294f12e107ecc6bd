import WsServer.Buckets
import WsServer.Lib.Isolation

/-! Reaping. An idle entry is removed together with its token bucket, and the next access makes a full
    one. That shows unless the bucket was full by then: it is after `IDLE_TTL` of rest when the capacity
    flows in during that time, and an idle entry has rested since `last_seen` unless the cap is zero,
    where every access spends a token and none is admitted. -/

namespace WsServer

open Lib

/-- `try_acquire` with the order in which the table is scanned, or the drop of a permit. -/
inductive IpCall where
  | acquire (now : ℕ) (order : List IpAddr) (ip : IpAddr)
  | drop (now : ℕ) (ip : IpAddr)

def IpCall.now : IpCall → ℕ
  | .acquire now _ _ | .drop now _ => now

/-- What a caller gets: an answer to `try_acquire`, nothing from a drop. -/
abbrev IpAnswer := Option (Except IpRejection Unit)

/-- The limiter and the addresses of the permits that are out. -/
structure IpBooks (F : Type) where
  lim : IpLimiter F
  held : List IpAddr

namespace IpBooks

variable {F : Type}

def admitted (q : IpBooks F) (ip : IpAddr) (r : Except IpRejection Unit × IpLimiter F) :
    IpAnswer × IpBooks F :=
  (some r.1,
    { lim := r.2
      held := match r.1 with
        | .ok () => ip :: q.held
        | .error _ => q.held })

def drop (q : IpBooks F) (now : ℕ) (ip : IpAddr) : Option (IpAnswer × IpBooks F) :=
  if ip ∈ q.held then some (none, { lim := q.lim.release now ip, held := q.held.erase ip }) else none

variable [F64 F]

def call (q : IpBooks F) : IpCall → Option (IpAnswer × IpBooks F)
  | .acquire now order ip =>
    if order.isPerm q.lim.states.keys then
      some (q.admitted ip (q.lim.tryAcquire now order ip))
    else none
  | .drop now ip => q.drop now ip

/-- The reference, whose `reap_idle` removes nothing. -/
def refCall (q : IpBooks F) : IpCall → Option (IpAnswer × IpBooks F)
  | .acquire now _ ip => some (q.admitted ip (q.lim.admission now ip))
  | .drop now ip => q.drop now ip

end IpBooks

/-- Every sequential run of the limiter gives the answers of the reference. -/
def ReapInvisible (F : Type) [F64 F] (config : Config) : Prop :=
  ∀ (lim : IpLimiter F), IpLimiter.fromConfig config = some lim →
    ∀ (calls : List IpCall) (answers : List (IpCall × IpAnswer)) (q : IpBooks F),
      (calls.map IpCall.now).Pairwise (· ≤ ·) →
      trace IpBooks.call { lim := lim, held := [] } calls = some (answers, q) →
      ∃ q', trace IpBooks.refCall { lim := lim, held := [] } calls = some (answers, q')

/-- The cap as the limiter keeps it, in 32 bits. -/
def Config.ipCap (config : Config) : Option UInt32 := config.ipMaxConcurrent.map UInt32.ofNat

/-- The capacity of the buckets of a limiter with this rate. -/
def Config.ipCapacity (config : Config) (rate : UInt32) : ℕ :=
  max ((config.ipRateBurst.map UInt32.toNat).getD (max rate.toNat 1)) 1

/-- The buckets fill up within `IDLE_TTL`, and the cap is not zero. -/
def Config.ReapsFull (config : Config) : Prop :=
  ∀ rate, config.ipConnectionRate = some rate → config.ipCap ≠ some 0 ∧
    config.ipCapacity rate * 1000000000 ≤ max rate.toNat 1 * (idleTtl + 1)

/-! ### Twins: an entry and its counterpart in the reference -/

/-- What an operation leaves of a limiter. -/
def IpLimiter.settings {F : Type} (lim : IpLimiter F) : Option UInt32 × Bool × F × F :=
  (lim.maxConcurrent, lim.rateConfigured, lim.refillPerSecond, lim.burst)

section
variable {F : Type} {K : Type*} [Field K] [LinearOrder K] {v : F → K}
  {base lim ref : IpLimiter F} {t now : ℕ} {ip : IpAddr}

/-- The bucket is one of the limiter's. -/
abbrev IpLimiter.Owns (v : F → K) (base : IpLimiter F) (t : ℕ) (b : TokenBucket F) : Prop :=
  b.Fed v base.refillPerSecond base.burst t

/-- An entry in use and its counterpart. An idle entry has rested since it was last seen. -/
structure Paired (v : F → K) (base : IpLimiter F) (now : ℕ) (st st' : IpState F) : Prop where
  concurrent : st'.concurrent = st.concurrent
  bucket : base.rateConfigured = true → base.Owns v now st.bucket ∧ base.Owns v now st'.bucket ∧
    (st'.bucket.view v).refill (secs K now) = (st.bucket.view v).refill (secs K now)
  rested : base.rateConfigured = true → st.concurrent = 0 →
    (st.bucket.view v).RestedSince (secs K st.lastSeen)

/-- An entry that was reaped has a counterpart that counts nothing and is full. -/
inductive Twin (v : F → K) (base : IpLimiter F) (t : ℕ) :
    Option (IpState F) → Option (IpState F) → Prop
  | absent : Twin v base t none none
  | kept {st st' : IpState F} (h : Paired v base t st st') : Twin v base t (some st) (some st')
  | reaped {st' : IpState F} (zero : st'.concurrent = 0)
      (bucket : base.rateConfigured = true → base.Owns v t st'.bucket ∧
        (st'.bucket.view v).level (secs K t) = (st'.bucket.view v).capacity) :
      Twin v base t none (some st')

/-- The limiter and the reference at time `t`. -/
structure Twins (v : F → K) (base : IpLimiter F) (t : ℕ) (lim ref : IpLimiter F) : Prop where
  settings : lim.settings = base.settings
  refSettings : ref.settings = base.settings
  entries : ∀ ip, Twin v base t (lim.states.lookup ip) (ref.states.lookup ip)

theorem Twins.put (h : Twins v base t lim ref) {st st' : IpState F} (hst : Paired v base t st st')
    (ip : IpAddr) : Twins v base t (lim.put ip st) (ref.put ip st') := by
  refine ⟨h.settings, h.refSettings, fun ip' => ?_⟩
  simp only [IpLimiter.put, Dict.lookup_insert_if]
  split
  · exact .kept hst
  · exact h.entries ip'

/-- Two updated entries that count the same and hold the same. -/
theorem Paired.updated {b b' : TokenBucket F} {n : UInt32} {seen seen' : ℕ}
    (hviews : base.rateConfigured = true → b'.view v = b.view v ∧ base.Owns v now b ∧
      base.Owns v now b')
    (hrest : base.rateConfigured = true → n = 0 → (b.view v).RestedSince (secs K seen)) :
    Paired v base now ⟨n, b, seen⟩ ⟨n, b', seen'⟩ := by
  refine ⟨rfl, fun hrate => ?_, hrest⟩
  obtain ⟨hview, hown, hown'⟩ := hviews hrate
  exact ⟨hown, hown', by rw [hview]⟩

variable [IsStrictOrderedRing K]

theorem Paired.later {st st' : IpState F} (h : Paired v base t st st') (ht : t ≤ now) :
    Paired v base now st st' := by
  refine ⟨h.concurrent, fun hrate => ?_, h.rested⟩
  obtain ⟨hown, hown', hview⟩ := h.bucket hrate
  refine ⟨hown.later ht, hown'.later ht, ?_⟩
  rw [← Bucket.refill_refill hown'.rate_nonneg (secs_mono ht), hview,
    Bucket.refill_refill hown.rate_nonneg (secs_mono ht)]

theorem Twin.later {o o' : Option (IpState F)} (h : Twin v base t o o') (ht : t ≤ now) :
    Twin v base now o o' := by
  cases h with
  | absent => exact .absent
  | kept h => exact .kept (h.later ht)
  | reaped zero bucket =>
    refine .reaped zero fun hrate => ?_
    obtain ⟨hown, hfull⟩ := bucket hrate
    exact ⟨hown.later ht, Bucket.full_mono hown.rate_nonneg (secs_mono ht) hfull⟩

theorem Twins.later (h : Twins v base t lim ref) (ht : t ≤ now) : Twins v base now lim ref :=
  ⟨h.settings, h.refSettings, fun ip => (h.entries ip).later ht⟩

/-! ### Reaping -/

/-- An idle entry has a counterpart that is full. -/
theorem Paired.reap {st st' : IpState F} (h : Paired v base now st st')
    (hlong : base.rateConfigured = true →
      max (v base.burst) 1 ≤ secs K (idleTtl + 1) * max (v base.refillPerSecond) 1)
    (hidle : IpLimiter.isIdle now st = true) : Twin v base now none (some st') := by
  simp only [IpLimiter.isIdle, Bool.and_eq_true, decide_eq_true_eq] at hidle
  obtain ⟨hzero, hlate⟩ := hidle
  refine .reaped (h.concurrent.trans hzero) fun hrate => ?_
  obtain ⟨hown, hown', hview⟩ := h.bucket hrate
  refine ⟨hown', ?_⟩
  have hgain : secs K (idleTtl + 1) ≤ secs K now - secs K st.lastSeen := by
    have hsum : secs K (st.lastSeen + (idleTtl + 1)) ≤ secs K now := secs_mono (by omega)
    have hadd : secs K (st.lastSeen + (idleTtl + 1)) = secs K st.lastSeen + secs K (idleTtl + 1) := by
      simp only [secs, Nat.cast_add, add_div]
    linarith
  have hfull : (st.bucket.view v).level (secs K now) = (st.bucket.view v).capacity := by
    refine (h.rested hrate hzero).full hown.rate_nonneg (secs_mono hown.last) ?_
    rw [hown.capacity, hown.rate]
    exact (hlong hrate).trans
      (mul_le_mul_of_nonneg_right hgain (zero_le_one.trans (le_max_right _ _)))
  have htokens : (st'.bucket.view v).level (secs K now) = (st.bucket.view v).level (secs K now) :=
    congrArg Bucket.tokens hview
  rw [htokens, hfull, hown.capacity, hown'.capacity]

theorem Twins.reapIdle (h : Twins v base now lim ref)
    (hlong : base.rateConfigured = true →
      max (v base.burst) 1 ≤ secs K (idleTtl + 1) * max (v base.refillPerSecond) 1)
    (order : List IpAddr) : Twins v base now (lim.reapIdle now order) ref := by
  unfold IpLimiter.reapIdle
  generalize lim.reapScan now order = victims
  induction victims generalizing lim with
  | nil => exact h
  | cons ip victims ih =>
    refine ih ?_
    unfold IpLimiter.reapRemove
    split
    · rename_i st hst
      split
      · rename_i hidle
        refine ⟨h.settings, h.refSettings, fun ip' => ?_⟩
        rw [Dict.lookup_erase_if]
        split
        · subst ip'
          have htwin := h.entries ip
          rw [hst] at htwin
          generalize ref.states.lookup ip = o' at htwin ⊢
          cases htwin with
          | kept hp => exact hp.reap hlong hidle
        · exact h.entries ip'
      · exact h
    · exact h

/-! ### Release and admission -/

theorem Twins.release (h : Twins v base now lim ref) (ip : IpAddr) :
    Twins v base now (lim.release now ip) (ref.release now ip) := by
  have htwin := h.entries ip
  unfold IpLimiter.release
  generalize hl : lim.states.lookup ip = o at htwin
  generalize hl' : ref.states.lookup ip = o' at htwin
  cases htwin with
  | absent => exact h
  | kept hp =>
    rename_i st st'
    have hnext : ∀ n, Paired v base now { st with concurrent := n, lastSeen := now }
        { st' with concurrent := n, lastSeen := now } := by
      refine fun n => ⟨rfl, hp.bucket, fun hrate _ => ?_⟩
      obtain ⟨hown, -, -⟩ := hp.bucket hrate
      exact Bucket.restedSince_of_nonneg hown.rate_nonneg (secs_mono hown.last) hown.tokens
    dsimp only
    rw [hp.concurrent]
    exact h.put (hnext _) ip
  | reaped zero bucket =>
    rename_i st'
    refine ⟨h.settings, h.refSettings, fun ip' => ?_⟩
    simp only [IpLimiter.put, Dict.lookup_insert_if]
    split
    · subst ip'
      rw [hl, zero]
      exact .reaped (by simp) bucket
    · exact h.entries ip'

variable [F64 F]

/-- The entries that an admission works on. -/
theorem Twins.paired (hv : F64.Exact v) (h : Twins v base now lim ref) (ip : IpAddr) :
    Paired v base now (lim.entry now ip) (ref.entry now ip) := by
  have hnew := TokenBucket.fed_new (v := v) hv now base.refillPerSecond base.burst
  have hrest : ((TokenBucket.new now base.refillPerSecond base.burst).view v).RestedSince
      (secs K now) := Bucket.restedSince_of_nonneg hnew.rate_nonneg le_rfl hnew.tokens
  obtain ⟨hr, hb⟩ : lim.refillPerSecond = base.refillPerSecond ∧ lim.burst = base.burst :=
    ⟨congrArg (·.2.2.1) h.settings, congrArg (·.2.2.2) h.settings⟩
  obtain ⟨hr', hb'⟩ : ref.refillPerSecond = base.refillPerSecond ∧ ref.burst = base.burst :=
    ⟨congrArg (·.2.2.1) h.refSettings, congrArg (·.2.2.2) h.refSettings⟩
  have htwin := h.entries ip
  unfold IpLimiter.entry
  rw [hr, hb, hr', hb']
  generalize lim.states.lookup ip = o at htwin ⊢
  generalize ref.states.lookup ip = o' at htwin ⊢
  cases htwin with
  | absent => exact ⟨rfl, fun _ => ⟨hnew, hnew, rfl⟩, fun _ _ => hrest⟩
  | kept hp => exact hp
  | reaped zero bucket =>
    refine ⟨zero, fun hrate => ?_, fun _ _ => hrest⟩
    obtain ⟨hown, hfull⟩ := bucket hrate
    refine ⟨hnew, hown, ?_⟩
    simp only [Option.getD_none, Option.getD_some, Bucket.refill, hfull,
      TokenBucket.level_new hv, hown.rate,
      hown.capacity, hnew.rate, hnew.capacity]

/-- The bucket after a rate check: the answer is the same, and so is what the two hold. -/
theorem Paired.tryConsume (hv : F64.Exact v) {st st' : IpState F} (h : Paired v base now st st')
    (hrate : base.rateConfigured = true) :
    (st'.bucket.tryConsume now).1 = (st.bucket.tryConsume now).1 ∧
      (st'.bucket.tryConsume now).2.view v = (st.bucket.tryConsume now).2.view v ∧
      base.Owns v now (st.bucket.tryConsume now).2 ∧ base.Owns v now (st'.bucket.tryConsume now).2 := by
  obtain ⟨hown, hown', hview⟩ := h.bucket hrate
  obtain ⟨hone, hnext⟩ := TokenBucket.view_tryConsume (v := v) hv hown.last
  obtain ⟨hone', hnext'⟩ := TokenBucket.view_tryConsume (v := v) hv hown'.last
  have hlevel : (st'.bucket.view v).level (secs K now) = (st.bucket.view v).level (secs K now) :=
    congrArg Bucket.tokens hview
  have hsame : (st'.bucket.tryConsume now).1 = (st.bucket.tryConsume now).1 := by
    rw [Bool.eq_iff_iff, hone, hone', hlevel]
  refine ⟨hsame, ?_, hown.tryConsume hv, hown'.tryConsume hv⟩
  rw [hnext, hnext', hsame, hview]

/-- An admission answers as the reference does. -/
theorem Twins.admission (hv : F64.Exact v) (h : Twins v base now lim ref)
    (hcap : base.rateConfigured = true → base.maxConcurrent ≠ some 0) (ip : IpAddr) :
    (ref.admission now ip).1 = (lim.admission now ip).1 ∧
      Twins v base now (lim.admission now ip).2 (ref.admission now ip).2 := by
  have hp := h.paired hv ip
  have hmax : lim.maxConcurrent = base.maxConcurrent := congrArg (·.1) h.settings
  have hmax' : ref.maxConcurrent = base.maxConcurrent := congrArg (·.1) h.refSettings
  have hconf : lim.rateConfigured = base.rateConfigured := congrArg (·.2.1) h.settings
  have hconf' : ref.rateConfigured = base.rateConfigured := congrArg (·.2.1) h.refSettings
  have hreached : ref.capReached ip now = lim.capReached ip now := by
    unfold IpLimiter.capReached
    rw [hmax, hmax', hp.concurrent]
  have hanswer : (ref.rateCheck now ip).1 = (lim.rateCheck now ip).1 := by
    unfold IpLimiter.rateCheck
    rw [hconf, hconf']
    dsimp only
    split
    · rename_i hrate
      exact (hp.tryConsume hv hrate).1
    · rfl
  have hviews : base.rateConfigured = true →
      (ref.rateCheck now ip).2.view v = (lim.rateCheck now ip).2.view v ∧
        base.Owns v now (lim.rateCheck now ip).2 ∧ base.Owns v now (ref.rateCheck now ip).2 := by
    intro hrate
    unfold IpLimiter.rateCheck
    rw [hconf, hconf', hrate]
    exact (hp.tryConsume hv hrate).2
  simp only [IpLimiter.admission, hanswer, hreached, hp.concurrent]
  split
  · -- refused by the rate: the bucket was only refilled
    rename_i hrefused
    refine ⟨rfl, h.put (.updated hviews fun hrate hzero => ?_) ip⟩
    obtain ⟨hown, -, -⟩ := hp.bucket hrate
    have hfalse : ((lim.entry now ip).bucket.tryConsume now).1 = false := by
      simpa [IpLimiter.rateCheck, hconf, hrate] using hrefused
    have hnext := (TokenBucket.view_tryConsume (v := v) hv hown.last).2
    rw [hfalse, if_neg Bool.false_ne_true] at hnext
    have hcheck : (lim.rateCheck now ip).2 = ((lim.entry now ip).bucket.tryConsume now).2 := by
      simp [IpLimiter.rateCheck, hconf, hrate]
    rw [hcheck, hnext]
    exact (hp.rested hrate hzero).refill hown.rate_nonneg (secs_mono hown.last)
  · split
    · -- refused by the cap: with no permit out it would be zero
      rename_i hfull
      refine ⟨rfl, h.put (.updated hviews fun hrate hzero => ?_) ip⟩
      obtain ⟨cap, hcap', hle⟩ := (IpLimiter.capReached_iff ip now lim).mp hfull
      rw [← IpLimiter.entry_concurrent now, hzero] at hle
      rw [hmax] at hcap'
      have hzero' : cap = 0 := UInt32.le_antisymm hle (UInt32.zero_le)
      exact absurd (hzero' ▸ hcap') (hcap hrate)
    · -- admitted, and seen now
      refine ⟨rfl, h.put (.updated hviews fun hrate _ => ?_) ip⟩
      obtain ⟨-, hown, -⟩ := hviews hrate
      exact Bucket.restedSince_of_nonneg hown.rate_nonneg (secs_mono hown.last) hown.tokens

/-! ### Runs -/

/-- One call, on both sides. -/
theorem Twins.call (hv : F64.Exact v) {q qr q' : IpBooks F} {k : IpCall} {r : IpAnswer}
    (hcap : base.rateConfigured = true → base.maxConcurrent ≠ some 0)
    (hlong : base.rateConfigured = true →
      max (v base.burst) 1 ≤ secs K (idleTtl + 1) * max (v base.refillPerSecond) 1)
    (h : Twins v base t q.lim qr.lim) (hheld : qr.held = q.held) (ht : t ≤ k.now)
    (hs : q.call k = some (r, q')) :
    ∃ qr', qr.refCall k = some (r, qr') ∧ Twins v base k.now q'.lim qr'.lim ∧ qr'.held = q'.held := by
  cases k with
  | acquire now order ip =>
    have ht : t ≤ now := ht
    simp only [IpBooks.call, Option.ite_none_right_eq_some, Option.some.injEq] at hs
    obtain ⟨-, hs⟩ := hs
    rw [IpLimiter.tryAcquire] at hs
    obtain ⟨hanswer, htwins⟩ := (((h.later ht).reapIdle hlong order).admission hv hcap ip)
    rw [IpBooks.admitted, Prod.mk.injEq] at hs
    obtain ⟨rfl, rfl⟩ := hs
    refine ⟨(qr.admitted ip (qr.lim.admission now ip)).2, ?_, htwins, ?_⟩
    · rw [IpBooks.refCall, ← hanswer]
      rfl
    · simp only [IpBooks.admitted, hanswer, hheld]
  | drop now ip =>
    have ht : t ≤ now := ht
    simp only [IpBooks.call, IpBooks.drop, Option.ite_none_right_eq_some, Option.some.injEq,
      Prod.mk.injEq] at hs
    obtain ⟨hmem, rfl, rfl⟩ := hs
    refine ⟨{ lim := qr.lim.release now ip, held := q.held.erase ip }, ?_, (h.later ht).release ip, rfl⟩
    rw [IpBooks.refCall, IpBooks.drop, hheld, if_pos hmem]

theorem Twins.trace (hv : F64.Exact v)
    (hcap : base.rateConfigured = true → base.maxConcurrent ≠ some 0)
    (hlong : base.rateConfigured = true →
      max (v base.burst) 1 ≤ secs K (idleTtl + 1) * max (v base.refillPerSecond) 1) :
    ∀ {calls : List IpCall} {t : ℕ} {q qr q' : IpBooks F} {answers : List (IpCall × IpAnswer)},
      Twins v base t q.lim qr.lim → qr.held = q.held → (∀ k ∈ calls, t ≤ k.now) →
      (calls.map IpCall.now).Pairwise (· ≤ ·) → Lib.trace IpBooks.call q calls = some (answers, q') →
      ∃ qr', Lib.trace IpBooks.refCall qr calls = some (answers, qr')
  | [], t, q, qr, q', answers, _, _, _, _, htrace => by
      simp only [Lib.trace, Option.some.injEq, Prod.mk.injEq] at htrace
      exact ⟨qr, by rw [← htrace.1]; rfl⟩
  | k :: ks, t, q, qr, q', answers, h, hheld, hlater, horder, htrace => by
      obtain ⟨r, q₁, rs, hk, hks, rfl⟩ := trace_cons htrace
      rw [List.map_cons, List.pairwise_cons] at horder
      obtain ⟨qr₁, hkr, htwins, hheld₁⟩ :=
        h.call hv hcap hlong hheld (hlater k List.mem_cons_self) hk
      obtain ⟨qr', hksr⟩ := Twins.trace hv hcap hlong htwins hheld₁
        (fun k' hk' => horder.1 _ (List.mem_map_of_mem hk')) horder.2 hks
      exact ⟨qr', trace_step hkr hksr⟩

omit [IsStrictOrderedRing K] in
/-- The numbers of a limiter with a rate. -/
theorem limiter_numbers [IsStrictOrderedRing K] (hv : F64.Exact v) {config : Config} {rate : UInt32}
    (h : IpLimiter.fromConfig config = some lim) (hrate : config.ipConnectionRate = some rate) :
    lim.maxConcurrent = config.ipCap ∧ lim.rateConfigured = true ∧
      max (v lim.burst) 1 = (config.ipCapacity rate : K) ∧
      max (v lim.refillPerSecond) 1 = ((max rate.toNat 1 : ℕ) : K) := by
  simp only [IpLimiter.fromConfig, hrate, Option.map_some, Option.isNone_some, Bool.and_false,
    Bool.false_eq_true, if_false, Option.some.injEq] at h
  subst h
  refine ⟨rfl, rfl, ?_, ?_⟩
  · cases hb : config.ipRateBurst with
    | none => simp [Config.ipCapacity, hb, hv.max, hv.ofU32, hv.one]
    | some b => simp [Config.ipCapacity, hb, hv.ofU32]
  · simp [hv.ofU32]

/-- Buckets that are full after `IDLE_TTL` hide the reaping. -/
theorem invisible_of_reapsFull (hv : F64.Exact v) {config : Config} (hfull : config.ReapsFull) :
    ReapInvisible F config := by
  intro lim hlim calls answers q horder htrace
  have hboth : lim.rateConfigured = true → lim.maxConcurrent ≠ some 0 ∧
      max (v lim.burst) 1 ≤ secs K (idleTtl + 1) * max (v lim.refillPerSecond) 1 := by
    intro hconf
    cases hrate : config.ipConnectionRate with
    | none =>
      simp only [IpLimiter.fromConfig, hrate, Option.map_none] at hlim
      split at hlim
      · cases hlim
      · cases hlim; cases hconf
    | some rate =>
      obtain ⟨hmax, -, hburst, hrefill⟩ := limiter_numbers hv hlim hrate
      obtain ⟨hcap, hle⟩ := hfull rate hrate
      refine ⟨by rw [hmax]; exact hcap, ?_⟩
      rw [hburst, hrefill, secs, div_mul_eq_mul_div, le_div_iff₀ (by norm_num)]
      rw [mul_comm ((idleTtl + 1 : ℕ) : K)]
      exact_mod_cast hle
  have hstart : Twins v lim 0 lim lim := by
    refine ⟨rfl, rfl, fun ip => ?_⟩
    rw [IpLimiter.fromConfig_states hlim]
    exact .absent
  exact Twins.trace hv (fun hc => (hboth hc).1) (fun hc => (hboth hc).2) hstart rfl
    (fun _ _ => Nat.zero_le _) horder htrace

end

end WsServer
