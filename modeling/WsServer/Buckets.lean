import WsServer.IpLimiter
import WsServer.Lib.Bucket

/-! The token bucket of the source as a bucket over an ordered field. `F64.Exact` takes `f64` arithmetic
    as exact: every value stands for a number, and every operation for the one on numbers. Under it
    `refill` and `try_consume` are `refill` and `take` of the bucket they stand for. -/

namespace WsServer

open Lib

variable {K : Type*} [Field K]

/-- A point in time, in seconds. -/
def secs (K : Type*) [Field K] (n : ℕ) : K := n / 1000000000

theorem secs_sub {m n : ℕ} (h : m ≤ n) : ((n - m : ℕ) : K) / 1000000000 = secs K n - secs K m := by
  rw [secs, secs, Nat.cast_sub h, sub_div]

variable [LinearOrder K]

theorem secs_mono [IsStrictOrderedRing K] {m n : ℕ} (h : m ≤ n) : secs K m ≤ secs K n := by
  unfold secs
  have hcast : (m : K) ≤ n := Nat.cast_le.mpr h
  exact div_le_div_of_nonneg_right hcast (by positivity)

/-- `f64` without rounding: `v` says which number a value is. -/
structure F64.Exact {F : Type} [F64 F] (v : F → K) : Prop where
  one : v 1 = 1
  add : ∀ x y, v (x + y) = v x + v y
  sub : ∀ x y, v (x - y) = v x - v y
  mul : ∀ x y, v (x * y) = v x * v y
  min : ∀ x y, v (min x y) = min (v x) (v y)
  max : ∀ x y, v (max x y) = max (v x) (v y)
  le : ∀ x y, x ≤ y ↔ v x ≤ v y
  ofU32 : ∀ n : UInt32, v (F64.ofU32 n) = n.toNat
  asSecs : ∀ n : ℕ, v (F64.asSecs n) = n / 1000000000

namespace TokenBucket

variable {F : Type} [F64 F] {v : F → K} {b : TokenBucket F} {now : ℕ}

/-- The bucket of numbers that a token bucket stands for. -/
def view (v : F → K) (b : TokenBucket F) : Bucket K :=
  { capacity := v b.capacity, rate := v b.refillPerSecond, tokens := v b.tokens,
    last := secs K b.lastRefill }

@[simp] theorem lastRefill_tryConsume (now : ℕ) (b : TokenBucket F) :
    (b.tryConsume now).2.lastRefill = now := by
  unfold tryConsume
  dsimp only
  split <;> rfl

theorem view_new (hv : F64.Exact v) (now : ℕ) (rate burst : F) :
    (TokenBucket.new now rate burst).view v =
      { capacity := max (v burst) 1, rate := max (v rate) 1, tokens := max (v burst) 1,
        last := secs K now } := by
  simp only [view, new, hv.max, hv.one]

theorem view_refill (hv : F64.Exact v) (h : b.lastRefill ≤ now) :
    (b.refill now).view v = (b.view v).refill (secs K now) := by
  simp only [view, refill, Bucket.refill, Bucket.level, hv.min, hv.add, hv.mul, hv.asSecs, secs_sub h]

/-- A token is spent exactly when the bucket holds one. -/
theorem view_tryConsume (hv : F64.Exact v) (h : b.lastRefill ≤ now) :
    ((b.tryConsume now).1 = true ↔ 1 ≤ (b.view v).level (secs K now)) ∧
      (b.tryConsume now).2.view v =
        if (b.tryConsume now).1 then ((b.view v).refill (secs K now)).take
        else (b.view v).refill (secs K now) := by
  have hview := view_refill (v := v) hv h
  have htokens : v (b.refill now).tokens = (b.view v).level (secs K now) :=
    congrArg Bucket.tokens hview
  have hone : (1 : F) ≤ (b.refill now).tokens ↔ 1 ≤ (b.view v).level (secs K now) := by
    rw [hv.le, hv.one, htokens]
  unfold tryConsume
  dsimp only
  by_cases hle : (1 : F) ≤ (b.refill now).tokens
  · rw [if_pos hle]
    refine ⟨⟨fun _ => hone.mp hle, fun _ => rfl⟩, ?_⟩
    rw [if_pos rfl, ← hview]
    simp only [view, Bucket.take, hv.sub, hv.one]
  · rw [if_neg hle]
    exact ⟨⟨by rintro ⟨⟩, fun hlevel => absurd (hone.mpr hlevel) hle⟩, hview⟩

/-- A bucket that `new` made for this rate and burst, refilled last at `t` or before. -/
structure Fed (v : F → K) (refillPerSecond burst : F) (t : ℕ) (b : TokenBucket F) : Prop where
  rate : (b.view v).rate = max (v refillPerSecond) 1
  capacity : (b.view v).capacity = max (v burst) 1
  last : b.lastRefill ≤ t
  tokens : 0 ≤ (b.view v).tokens

/-- A new bucket is full. -/
theorem level_new (hv : F64.Exact v) (now : ℕ) (rate burst : F) :
    ((TokenBucket.new now rate burst).view v).level (secs K now) = max (v burst) 1 := by
  rw [view_new hv]
  simp [Bucket.level]

section
variable [IsStrictOrderedRing K] {rate burst : F} {t : ℕ}

theorem fed_new (hv : F64.Exact v) (now : ℕ) (rate burst : F) :
    Fed v rate burst now (TokenBucket.new now rate burst) := by
  have hview := view_new (v := v) hv now rate burst
  refine ⟨by rw [hview], by rw [hview], le_rfl, ?_⟩
  rw [hview]
  exact zero_le_one.trans (le_max_right _ _)

namespace Fed

omit [F64 F] [IsStrictOrderedRing K] in
theorem later (h : Fed v rate burst t b) (ht : t ≤ now) : Fed v rate burst now b :=
  ⟨h.rate, h.capacity, h.last.trans ht, h.tokens⟩

omit [F64 F]

theorem rate_nonneg (h : Fed v rate burst t b) : 0 ≤ (b.view v).rate := by
  rw [h.rate]
  exact zero_le_one.trans (le_max_right _ _)

theorem level_nonneg (h : Fed v rate burst now b) : 0 ≤ (b.view v).level (secs K now) := by
  refine Bucket.level_nonneg h.rate_nonneg (secs_mono h.last) h.tokens ?_
  rw [h.capacity]
  exact zero_le_one.trans (le_max_right _ _)

variable [F64 F]

theorem tryConsume (hv : F64.Exact v) (h : Fed v rate burst now b) :
    Fed v rate burst now (b.tryConsume now).2 := by
  obtain ⟨hone, hnext⟩ := view_tryConsume (v := v) hv h.last
  refine ⟨?_, ?_, (lastRefill_tryConsume now _).le, ?_⟩
  · rw [hnext, ← h.rate]; split <;> rfl
  · rw [hnext, ← h.capacity]; split <;> rfl
  · rw [hnext]
    split
    · rename_i hok
      exact sub_nonneg.mpr (hone.mp hok)
    · exact h.level_nonneg

end Fed

end

end TokenBucket

end WsServer
