import WsServer.Handshake
import WsServer.Lib.Envelope
import WsServer.Reaped

/-! Who is admitted by `RateLimiter` and by `TokenBucket`. The two are one bucket, made and asked in the
    same way, and what they answer over a whole history is the envelope of that bucket. -/

namespace WsServer

open Lib

/-- The limiter after its first calls, made at the times `t 1`, `t 2`, and so on. -/
def afterCalls {σ : Type} (call : ℕ → σ → Bool × σ) (s : σ) (t : ℕ → ℕ) : ℕ → σ
  | 0 => s
  | i + 1 => (call (t (i + 1)) (afterCalls call s t i)).2

/-- What call `i` is answered; calls are numbered from one. -/
def answerOf {σ : Type} (call : ℕ → σ → Bool × σ) (s : σ) (t : ℕ → ℕ) (i : ℕ) : Bool :=
  (call (t i) (afterCalls call s t (i - 1))).1

variable {F : Type} [F64 F] {K : Type*} [Field K] [LinearOrder K] [IsStrictOrderedRing K] {v : F → K}
  {n : ℕ} {t : ℕ → ℕ}

namespace TokenBucket

variable {b : TokenBucket F}

omit [IsStrictOrderedRing K] in
/-- Asking the token bucket is asking the bucket it stands for. -/
theorem view_afterCalls (hv : F64.Exact v) (hlast : b.lastRefill = t 0)
    (hmono : ∀ k < n, t k ≤ t (k + 1)) : ∀ i ≤ n,
    (afterCalls tryConsume b t i).lastRefill = t i ∧
      (afterCalls tryConsume b t i).view v = (b.view v).asked (fun k => secs K (t k)) i := by
  intro i
  induction i with
  | zero => exact fun _ => ⟨hlast, rfl⟩
  | succ i ih =>
    intro hi
    obtain ⟨hrefilled, hview⟩ := ih (by omega)
    have hle : (afterCalls tryConsume b t i).lastRefill ≤ t (i + 1) := by
      rw [hrefilled]
      exact hmono i hi
    obtain ⟨hone, hnext⟩ := view_tryConsume (v := v) hv hle
    refine ⟨lastRefill_tryConsume _ _, ?_⟩
    rw [afterCalls, hnext, Bucket.asked, ← hview]
    by_cases hgrant : 1 ≤ ((afterCalls tryConsume b t i).view v).level (secs K (t (i + 1)))
    · rw [if_pos hgrant, if_pos (hone.mpr hgrant)]
    · rw [if_neg hgrant, if_neg (mt hone.mp hgrant)]

omit [IsStrictOrderedRing K] in
theorem answerOf_eq (hv : F64.Exact v) (hlast : b.lastRefill = t 0)
    (hmono : ∀ k < n, t k ≤ t (k + 1)) {i : ℕ} (hi : 1 ≤ i) (hin : i ≤ n) :
    answerOf tryConsume b t i = (b.view v).grants (fun k => secs K (t k)) i := by
  obtain ⟨i, rfl⟩ := Nat.exists_eq_add_of_le' hi
  obtain ⟨hrefilled, hview⟩ := view_afterCalls (v := v) hv hlast hmono i (by omega)
  have hle : (afterCalls tryConsume b t i).lastRefill ≤ t (i + 1) := by
    rw [hrefilled]
    exact hmono i (by omega)
  rw [Bool.eq_iff_iff, Bucket.grants_succ, ← hview]
  exact (view_tryConsume (v := v) hv hle).1

/-- A token bucket made full at `t 0` keeps to the envelope of the numbers it stands for. -/
theorem envelope (hv : F64.Exact v) (hlast : b.lastRefill = t 0) (hfull : b.tokens = b.capacity)
    (hrate : 1 ≤ v b.refillPerSecond) (hcapacity : 1 ≤ v b.capacity)
    (hmono : ∀ k < n, t k ≤ t (k + 1)) :
    Envelope (v b.capacity) (v b.refillPerSecond) (fun k => secs K (t k)) n (answerOf tryConsume b t)
      fun i => v (afterCalls tryConsume b t i).tokens := by
  have hbucket : Envelope (b.view v).capacity (b.view v).rate (fun k => secs K (t k)) n
      ((b.view v).grants fun k => secs K (t k))
        fun i => ((b.view v).asked (fun k => secs K (t k)) i).tokens :=
    Bucket.envelope (congrArg (secs K) hlast) (congrArg v hfull) (zero_le_one.trans hrate)
      (zero_le_one.trans hcapacity) fun k hk => secs_mono (hmono k hk)
  refine hbucket.congr (fun i hi hin => answerOf_eq hv hlast hmono hi hin) fun i hi => ?_
  rw [← (view_afterCalls hv hlast hmono i hi).2]
  rfl

end TokenBucket

theorem toNat_max_one (n : UInt32) : (max n 1).toNat = max n.toNat 1 := by
  have hmax : max n 1 = if n ≤ 1 then 1 else n := rfl
  rw [hmax, max_def]
  split_ifs with h h' h'
  · rfl
  · exact absurd (UInt32.le_iff_toNat_le.mp h) h'
  · exact absurd (UInt32.le_iff_toNat_le.mpr h') h
  · rfl

namespace RateLimiter

/-- A rate limiter is a token bucket. -/
def bucket (l : RateLimiter F) : TokenBucket F :=
  { capacity := l.capacity, tokens := l.tokens, refillPerSecond := l.refillPerSecond,
    lastRefill := l.lastRefill }

theorem bucket_allow (now : ℕ) (l : RateLimiter F) :
    (l.allow now).1 = (l.bucket.tryConsume now).1 ∧
      (l.allow now).2.bucket = (l.bucket.tryConsume now).2 := by
  have htokens : (l.bucket.refill now).tokens = (l.refill now).tokens := rfl
  unfold allow TokenBucket.tryConsume
  dsimp only
  rw [htokens]
  split
  · exact ⟨rfl, rfl⟩
  · exact ⟨rfl, rfl⟩

theorem bucket_afterCalls (l : RateLimiter F) (t : ℕ → ℕ) (i : ℕ) :
    (afterCalls allow l t i).bucket = afterCalls TokenBucket.tryConsume l.bucket t i := by
  induction i with
  | zero => rfl
  | succ i ih => rw [afterCalls, (bucket_allow _ _).2, ih, afterCalls]

theorem answerOf_eq (l : RateLimiter F) (t : ℕ → ℕ) (i : ℕ) :
    answerOf allow l t i = answerOf TokenBucket.tryConsume l.bucket t i := by
  rw [answerOf, (bucket_allow _ _).1, bucket_afterCalls, answerOf]

end RateLimiter

/-- Whatever the rate, the burst and the times of the calls: a call is admitted exactly when no window
    that ends with it is overdrawn. -/
theorem limiters_keep_envelope (hv : F64.Exact v) (hmono : ∀ k < n, t k ≤ t (k + 1)) :
    (∀ rate burst : UInt32,
      Envelope ((max burst.toNat 1 : ℕ) : K) ((max rate.toNat 1 : ℕ) : K) (fun k => secs K (t k)) n
        (answerOf RateLimiter.allow (RateLimiter.new (t 0) rate burst : RateLimiter F) t)
          fun i => v (afterCalls RateLimiter.allow (RateLimiter.new (t 0) rate burst) t i).tokens) ∧
    ∀ rate burst : F,
      Envelope (max (v burst) 1) (max (v rate) 1) (fun k => secs K (t k)) n
        (answerOf TokenBucket.tryConsume (TokenBucket.new (t 0) rate burst) t)
          fun i => v (afterCalls TokenBucket.tryConsume (TokenBucket.new (t 0) rate burst) t i).tokens := by
  refine ⟨fun rate burst => ?_, fun rate burst => ?_⟩
  · set l : RateLimiter F := RateLimiter.new (t 0) rate burst with hl
    have hcapacity : v l.bucket.capacity = ((max burst.toNat 1 : ℕ) : K) := by
      rw [← toNat_max_one]
      exact hv.ofU32 _
    have hrate : v l.bucket.refillPerSecond = ((max rate.toNat 1 : ℕ) : K) := by
      rw [← toNat_max_one]
      exact hv.ofU32 _
    have henvelope := l.bucket.envelope (v := v) (n := n) (t := t) hv rfl rfl
      (by rw [hrate]; exact_mod_cast le_max_right _ _)
      (by rw [hcapacity]; exact_mod_cast le_max_right _ _) hmono
    rw [hcapacity, hrate] at henvelope
    refine henvelope.congr (fun i _ _ => l.answerOf_eq t i) fun i _ => ?_
    rw [← RateLimiter.bucket_afterCalls]
    rfl
  · have hview := TokenBucket.view_new (v := v) hv (t 0) rate burst
    have hcapacity := congrArg Bucket.capacity hview
    have hrate := congrArg Bucket.rate hview
    have henvelope := (TokenBucket.new (t 0) rate burst).envelope (v := v) (n := n) (t := t) hv rfl rfl
      (hrate.ge.trans' (le_max_right _ _)) (hcapacity.ge.trans' (le_max_right _ _)) hmono
    simp only [TokenBucket.view] at hcapacity hrate
    rwa [hcapacity, hrate] at henvelope

/-- A call at once, then two after a second. -/
def secondApart (k : ℕ) : ℕ := k / 2 * 1000000000

theorem limiters_keep_envelope_secondApart :
    [1, 2, 3].map (answerOf RateLimiter.allow (RateLimiter.new 0 1 1 : RateLimiter ℚ) secondApart) =
        [true, true, false] ∧
      Envelope (((max (UInt32.toNat 1) 1 : ℕ)) : ℚ) ((max (UInt32.toNat 1) 1 : ℕ) : ℚ)
        (fun k => secs ℚ (secondApart k)) 3
          (answerOf RateLimiter.allow (RateLimiter.new (secondApart 0) 1 1 : RateLimiter ℚ) secondApart)
            fun i => (afterCalls RateLimiter.allow (RateLimiter.new (secondApart 0) 1 1) secondApart
              i).tokens :=
  ⟨by decide +kernel, (limiters_keep_envelope exact_rat (n := 3) (t := secondApart) (by decide)).1 1 1⟩

end WsServer
