import Mathlib.Algebra.Order.Field.Basic
import Mathlib.Tactic.Linarith
import Mathlib.Tactic.Ring

/-! Token buckets over an ordered field. A bucket gains `rate` tokens a unit of time up to `capacity`;
    `refill` brings it up to date, `take` spends one. `Spent` counts what was taken since a moment and
    gives the bound on a window of time; `RestedSince` says from when on a bucket may have been left
    alone, and so when it must be full again. -/

namespace Lib

/-- A bucket that held `tokens` at time `last`. -/
structure Bucket (K : Type*) where
  capacity : K
  rate : K
  tokens : K
  last : K

namespace Bucket

variable {K : Type*} [Field K]

def take (b : Bucket K) : Bucket K := { b with tokens := b.tokens - 1 }

@[simp] theorem take_rate (b : Bucket K) : b.take.rate = b.rate := rfl

@[simp] theorem take_capacity (b : Bucket K) : b.take.capacity = b.capacity := rfl

variable [LinearOrder K]

/-- What the bucket holds at time `t`. -/
def level (b : Bucket K) (t : K) : K := min (b.tokens + (t - b.last) * b.rate) b.capacity

def refill (b : Bucket K) (t : K) : Bucket K := { b with tokens := b.level t, last := t }

@[simp] theorem refill_rate (b : Bucket K) (t : K) : (b.refill t).rate = b.rate := rfl

@[simp] theorem refill_capacity (b : Bucket K) (t : K) : (b.refill t).capacity = b.capacity := rfl

theorem level_le (b : Bucket K) (t : K) : b.level t ≤ b.capacity := min_le_right _ _

variable [IsStrictOrderedRing K] {b : Bucket K} {s t : K} {n : ℕ}

/-- Refilling on the way changes nothing. -/
theorem level_refill (hrate : 0 ≤ b.rate) (h : s ≤ t) : (b.refill s).level t = b.level t := by
  have hgain : 0 ≤ (t - s) * b.rate := mul_nonneg (sub_nonneg.mpr h) hrate
  have hsum : (s - b.last) * b.rate + (t - s) * b.rate = (t - b.last) * b.rate := by ring
  simp only [level, refill]
  rcases le_total (b.tokens + (s - b.last) * b.rate) b.capacity with hle | hle
  · rw [min_eq_left hle, add_assoc, hsum]
  · rw [min_eq_right hle, min_eq_right (by linarith), min_eq_right (by linarith)]

theorem refill_refill (hrate : 0 ≤ b.rate) (h : s ≤ t) : (b.refill s).refill t = b.refill t := by
  rw [refill, level_refill hrate h]
  rfl

theorem level_nonneg (hrate : 0 ≤ b.rate) (h : b.last ≤ t) (htokens : 0 ≤ b.tokens)
    (hcapacity : 0 ≤ b.capacity) : 0 ≤ b.level t :=
  le_min (add_nonneg htokens (mul_nonneg (sub_nonneg.mpr h) hrate)) hcapacity

/-- A full bucket stays full. -/
theorem full_mono (hrate : 0 ≤ b.rate) (h : s ≤ t) (hfull : b.level s = b.capacity) :
    b.level t = b.capacity := by
  have hgain : (s - b.last) * b.rate ≤ (t - b.last) * b.rate :=
    mul_le_mul_of_nonneg_right (by linarith) hrate
  have hle := min_eq_right_iff.mp hfull
  exact min_eq_right (by linarith)

/-! ### Spending -/

/-- `n` tokens were taken since time `s`. -/
def Spent (b : Bucket K) (s : K) (n : ℕ) : Prop := n + b.tokens ≤ b.capacity + (b.last - s) * b.rate

theorem spent_zero (hrate : 0 ≤ b.rate) (h : s ≤ t) : (b.refill t).Spent s 0 := by
  have hgain : 0 ≤ (t - s) * b.rate := mul_nonneg (sub_nonneg.mpr h) hrate
  have hlevel := b.level_le t
  simp only [Spent, refill, Nat.cast_zero]
  linarith

theorem Spent.refill (h : b.Spent s n) (t : K) : (b.refill t).Spent s n := by
  have hlevel : b.level t ≤ b.tokens + (t - b.last) * b.rate := min_le_left _ _
  have hsum : (b.last - s) * b.rate + (t - b.last) * b.rate = (t - s) * b.rate := by ring
  simp only [Spent, Bucket.refill] at h ⊢
  linarith

theorem Spent.take (h : b.Spent s n) : b.take.Spent s (n + 1) := by
  simp only [Spent, Bucket.take, Nat.cast_add, Nat.cast_one] at h ⊢
  linarith

/-- What was taken in a window is at most the capacity and what flowed in. -/
theorem Spent.le (h : b.Spent s n) (hpos : 0 ≤ b.tokens) :
    (n : K) ≤ b.capacity + (b.last - s) * b.rate := by
  unfold Spent at h
  linarith

/-! ### Resting -/

/-- The bucket holds at least what flowed in since time `s`. -/
def RestedSince (b : Bucket K) (s : K) : Prop := min ((b.last - s) * b.rate) b.capacity ≤ b.tokens

theorem restedSince_of_nonneg (hrate : 0 ≤ b.rate) (hlast : b.last ≤ s) (hpos : 0 ≤ b.tokens) :
    b.RestedSince s := by
  have hneg : (b.last - s) * b.rate ≤ 0 := mul_nonpos_of_nonpos_of_nonneg (by linarith) hrate
  exact le_trans (min_le_left _ _) (hneg.trans hpos)

theorem RestedSince.level (h : b.RestedSince s) (hrate : 0 ≤ b.rate) (ht : b.last ≤ t) :
    min ((t - s) * b.rate) b.capacity ≤ b.level t := by
  have hgain : 0 ≤ (t - b.last) * b.rate := mul_nonneg (sub_nonneg.mpr ht) hrate
  have hsum : (b.last - s) * b.rate + (t - b.last) * b.rate = (t - s) * b.rate := by ring
  refine le_min ?_ (min_le_right _ _)
  rcases min_le_iff.mp h with hle | hle
  · exact le_trans (min_le_left _ _) (by linarith)
  · exact le_trans (min_le_right _ _) (by linarith)

theorem RestedSince.refill (h : b.RestedSince s) (hrate : 0 ≤ b.rate) (ht : b.last ≤ t) :
    (b.refill t).RestedSince s :=
  h.level hrate ht

/-- A bucket that rested long enough is full. -/
theorem RestedSince.full (h : b.RestedSince s) (hrate : 0 ≤ b.rate) (ht : b.last ≤ t)
    (hlong : b.capacity ≤ (t - s) * b.rate) : b.level t = b.capacity := by
  refine le_antisymm (b.level_le t) ?_
  have hlevel := h.level hrate ht
  rwa [min_eq_right hlong] at hlevel

end Bucket

end Lib
