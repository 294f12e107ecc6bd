import Mathlib.Data.Finset.Max
import Mathlib.Order.Interval.Finset.Nat
import WsServer.Lib.Bucket

/-! Who gets a token, said without the balance. A full bucket is asked at one time after the other;
    its balance is the least of `capacity + rate * window - granted` over all windows that end now, so
    a call is granted exactly when no window that ends with it is overdrawn. -/

namespace Lib

/-- How many of the calls from `j` on and before `i` were admitted. -/
def admittedIn (admitted : ℕ → Bool) (j i : ℕ) : ℕ :=
  ((Finset.Ico j i).filter fun k => admitted k = true).card

@[simp] theorem admittedIn_self (admitted : ℕ → Bool) (i : ℕ) : admittedIn admitted i i = 0 := by
  simp [admittedIn]

theorem admittedIn_succ (admitted : ℕ → Bool) {j i : ℕ} (h : j ≤ i) :
    admittedIn admitted j (i + 1) = admittedIn admitted j i + if admitted i then 1 else 0 := by
  unfold admittedIn
  rw [Nat.Ico_succ_right_eq_insert_Ico h, Finset.filter_insert]
  split
  · rw [Finset.card_insert_of_notMem (by simp)]
  · rfl

theorem admittedIn_le (admitted : ℕ → Bool) (j i : ℕ) : admittedIn admitted j i ≤ i - j :=
  (Finset.card_filter_le _ _).trans (Nat.card_Ico j i).le

/-- The calls `1, …, n` were made at nondecreasing times after `time 0`: those were admitted that no
    window forbids. -/
structure Envelope {K : Type*} [Field K] [LinearOrder K] (capacity rate : K) (time : ℕ → K) (n : ℕ)
    (admitted : ℕ → Bool) (tokens : ℕ → K) : Prop where
  admits_iff : ∀ i, 1 ≤ i → i ≤ n → (admitted i = true ↔
    ∀ j ≤ i, (admittedIn admitted (max j 1) i : K) + 1 ≤ capacity + rate * (time i - time j))
  window : ∀ start length : K, 0 ≤ length →
    (((Finset.Icc 1 n).filter fun k =>
      admitted k = true ∧ start ≤ time k ∧ time k ≤ start + length).card : K) ≤
        capacity + rate * length
  conforming : ∀ i, 1 ≤ i → i ≤ n →
    (∀ j ≤ i, ((i - max j 1 : ℕ) : K) + 1 ≤ capacity + rate * (time i - time j)) →
      admitted i = true
  bounded : ∀ i ≤ n, 0 ≤ tokens i ∧ tokens i ≤ capacity

/-- Only the first `n` calls and balances count. -/
theorem Envelope.congr {K : Type*} [Field K] [LinearOrder K] {capacity rate : K} {time : ℕ → K} {n : ℕ}
    {admitted admitted' : ℕ → Bool} {tokens tokens' : ℕ → K}
    (h : Envelope capacity rate time n admitted tokens)
    (hcalls : ∀ i, 1 ≤ i → i ≤ n → admitted' i = admitted i)
    (htokens : ∀ i ≤ n, tokens' i = tokens i) :
    Envelope capacity rate time n admitted' tokens' := by
  refine ⟨fun i hi hin => ?_, fun start length hlength => ?_, fun i hi hin hall => ?_, fun i hi => ?_⟩
  · -- admits_iff
    have hcount : ∀ j, admittedIn admitted' (max j 1) i = admittedIn admitted (max j 1) i := by
      intro j
      refine congrArg Finset.card (Finset.filter_congr fun k hk => ?_)
      obtain ⟨hj, hki⟩ := Finset.mem_Ico.mp hk
      rw [hcalls k ((le_max_right _ _).trans hj) (by omega)]
    rw [hcalls i hi hin, h.admits_iff i hi hin]
    simp only [hcount]
  · -- window
    have hsame : ((Finset.Icc 1 n).filter fun k =>
        admitted' k = true ∧ start ≤ time k ∧ time k ≤ start + length) =
          (Finset.Icc 1 n).filter fun k =>
            admitted k = true ∧ start ≤ time k ∧ time k ≤ start + length := by
      refine Finset.filter_congr fun k hk => ?_
      obtain ⟨hk1, hkn⟩ := Finset.mem_Icc.mp hk
      rw [hcalls k hk1 hkn]
    rw [hsame]
    exact h.window start length hlength
  · -- conforming
    rw [hcalls i hi hin]
    exact h.conforming i hi hin hall
  · -- bounded
    rw [htokens i hi]
    exact h.bounded i hi

namespace Bucket

variable {K : Type*} [Field K] [LinearOrder K] {b : Bucket K} {t : ℕ → K} {i n : ℕ}

/-- The bucket after its first calls, made at the times `t 1`, `t 2`, and so on. -/
def asked (b : Bucket K) (t : ℕ → K) : ℕ → Bucket K
  | 0 => b
  | i + 1 =>
    if 1 ≤ (b.asked t i).level (t (i + 1)) then ((b.asked t i).refill (t (i + 1))).take
    else (b.asked t i).refill (t (i + 1))

/-- Call `i` gets a token; calls are numbered from one. -/
def grants (b : Bucket K) (t : ℕ → K) (i : ℕ) : Bool :=
  decide (1 ≤ (b.asked t (i - 1)).level (t i))

theorem grants_succ : b.grants t (i + 1) = true ↔ 1 ≤ (b.asked t i).level (t (i + 1)) := by
  simp [grants]

@[simp] theorem asked_rate (b : Bucket K) (t : ℕ → K) (i : ℕ) : (b.asked t i).rate = b.rate := by
  induction i with
  | zero => rfl
  | succ i ih =>
    rw [asked]
    split
    · exact ih
    · exact ih

@[simp] theorem asked_capacity (b : Bucket K) (t : ℕ → K) (i : ℕ) :
    (b.asked t i).capacity = b.capacity := by
  induction i with
  | zero => rfl
  | succ i ih =>
    rw [asked]
    split
    · exact ih
    · exact ih

theorem asked_last (h : b.last = t 0) (i : ℕ) : (b.asked t i).last = t i := by
  cases i with
  | zero => exact h
  | succ i =>
    rw [asked]
    split <;> rfl

theorem asked_tokens_succ (b : Bucket K) (t : ℕ → K) (i : ℕ) : (b.asked t (i + 1)).tokens =
    (b.asked t i).level (t (i + 1)) - if b.grants t (i + 1) then 1 else 0 := by
  rw [asked]
  by_cases hle : 1 ≤ (b.asked t i).level (t (i + 1))
  · rw [if_pos hle, if_pos (grants_succ.mpr hle)]
    rfl
  · rw [if_neg hle, if_neg (mt grants_succ.mp hle), sub_zero]
    rfl

variable [IsStrictOrderedRing K]

/-- The level at call `i + 1` against the balance after call `i`. -/
theorem le_level_asked (hlast : b.last = t 0) {x : K} : x ≤ (b.asked t i).level (t (i + 1)) ↔
    x - b.rate * (t (i + 1) - t i) ≤ (b.asked t i).tokens ∧ x ≤ b.capacity := by
  rw [level, le_min_iff, asked_last hlast, asked_rate, asked_capacity, sub_le_iff_le_add, mul_comm]

/-- The balance is the least of what the windows leave. -/
theorem le_asked_tokens (hlast : b.last = t 0) (hfull : b.tokens = b.capacity) {x : K} :
    x ≤ (b.asked t i).tokens ↔
      ∀ j ≤ i, x + admittedIn (b.grants t) (max j 1) (i + 1) ≤ b.capacity + b.rate * (t i - t j) := by
  induction i generalizing x with
  | zero =>
    simp [asked, hfull]
  | succ i ih =>
    -- a call that is granted counts in every window but the empty one
    have hcount : ∀ j ≤ i + 1, (admittedIn (b.grants t) (max j 1) (i + 1 + 1) : K) =
        admittedIn (b.grants t) (max j 1) (i + 1) + if b.grants t (i + 1) then 1 else 0 := by
      intro j hj
      rw [admittedIn_succ _ (by omega)]
      split <;> simp
    rw [asked_tokens_succ, le_sub_iff_add_le, le_level_asked hlast, ih]
    constructor
    · rintro ⟨hwindows, hcapacity⟩ j hj
      rw [hcount j hj]
      rcases Nat.lt_or_eq_of_le hj with hlt | rfl
      · have hwindow := hwindows j (by omega)
        linarith
      · simp only [Nat.le_add_left, sup_of_le_left, admittedIn_self, sub_self,
          Nat.cast_zero, mul_zero, add_zero, zero_add]
        linarith
    · intro hwindows
      refine ⟨fun j hj => ?_, ?_⟩
      · have hwindow := hwindows j (by omega)
        rw [hcount j (by omega)] at hwindow
        linarith
      · have hwindow := hwindows (i + 1) le_rfl
        rw [hcount _ le_rfl] at hwindow
        simp only [Nat.le_add_left, sup_of_le_left, admittedIn_self, sub_self,
          Nat.cast_zero, mul_zero, add_zero, zero_add] at hwindow
        linarith

theorem asked_tokens_nonneg (hlast : b.last = t 0) (hfull : b.tokens = b.capacity)
    (hrate : 0 ≤ b.rate) (hcapacity : 0 ≤ b.capacity) (hmono : ∀ k < n, t k ≤ t (k + 1)) :
    ∀ i ≤ n, 0 ≤ (b.asked t i).tokens := by
  intro i
  induction i with
  | zero =>
    intro _
    rw [asked, hfull]
    exact hcapacity
  | succ i ih =>
    intro hi
    rw [asked_tokens_succ]
    by_cases hgrant : b.grants t (i + 1) = true
    · rw [if_pos hgrant]
      exact sub_nonneg.mpr (grants_succ.mp hgrant)
    · rw [if_neg hgrant, sub_zero]
      refine level_nonneg ?_ ?_ (ih (by omega)) ?_
      · rwa [asked_rate]
      · rw [asked_last hlast]
        exact hmono i hi
      · rwa [asked_capacity]

theorem asked_tokens_le (hfull : b.tokens = b.capacity) (i : ℕ) :
    (b.asked t i).tokens ≤ b.capacity := by
  cases i with
  | zero => exact hfull.le
  | succ i =>
    have hlevel := (b.asked t i).level_le (t (i + 1))
    rw [asked_capacity] at hlevel
    rw [asked_tokens_succ]
    split
    · linarith
    · linarith

/-- A call is granted exactly when no window that ends with it is overdrawn. -/
theorem grants_iff (hlast : b.last = t 0) (hfull : b.tokens = b.capacity) :
    b.grants t (i + 1) = true ↔ ∀ j ≤ i + 1, (admittedIn (b.grants t) (max j 1) (i + 1) : K) + 1 ≤
      b.capacity + b.rate * (t (i + 1) - t j) := by
  rw [grants_succ, le_level_asked hlast, le_asked_tokens hlast hfull]
  constructor
  · rintro ⟨hwindows, hcapacity⟩ j hj
    rcases Nat.lt_or_eq_of_le hj with hlt | rfl
    · have hwindow := hwindows j (by omega)
      linarith
    · simpa using hcapacity
  · intro hwindows
    refine ⟨fun j hj => ?_, ?_⟩
    · have hwindow := hwindows j (by omega)
      linarith
    · simpa using hwindows (i + 1) le_rfl

/-- Between two calls, both included, no more is granted than the capacity and what flowed in. -/
theorem granted_le (hlast : b.last = t 0) (hfull : b.tokens = b.capacity)
    (hpos : 0 ≤ (b.asked t i).tokens) {j : ℕ} (hj : 1 ≤ j) (hji : j ≤ i) :
    (admittedIn (b.grants t) j (i + 1) : K) ≤ b.capacity + b.rate * (t i - t j) := by
  have hwindow := (le_asked_tokens hlast hfull).mp hpos j hji
  rwa [max_eq_left hj, zero_add] at hwindow

/-- The window reaches from its first granted call to its last one. -/
theorem window_le (hlast : b.last = t 0) (hfull : b.tokens = b.capacity) (hrate : 0 ≤ b.rate)
    (hcapacity : 0 ≤ b.capacity) (hpos : ∀ i ≤ n, 0 ≤ (b.asked t i).tokens) (start : K) {length : K}
    (hlength : 0 ≤ length) :
    (((Finset.Icc 1 n).filter fun k =>
      b.grants t k = true ∧ start ≤ t k ∧ t k ≤ start + length).card : K) ≤
        b.capacity + b.rate * length := by
  set calls := (Finset.Icc 1 n).filter fun k =>
    b.grants t k = true ∧ start ≤ t k ∧ t k ≤ start + length
  rcases calls.eq_empty_or_nonempty with hnone | hsome
  · rw [hnone, Finset.card_empty, Nat.cast_zero]
    exact add_nonneg hcapacity (mul_nonneg hrate hlength)
  · obtain ⟨hj, -, hstart, -⟩ := Finset.mem_filter.mp (Finset.min'_mem calls hsome)
    obtain ⟨hi, -, -, hend⟩ := Finset.mem_filter.mp (Finset.max'_mem calls hsome)
    have hsub : calls ⊆ (Finset.Ico (calls.min' hsome) (calls.max' hsome + 1)).filter fun k =>
        b.grants t k = true := by
      intro k hk
      refine Finset.mem_filter.mpr ⟨Finset.mem_Ico.mpr ⟨calls.min'_le k hk, ?_⟩,
        (Finset.mem_filter.mp hk).2.1⟩
      exact Nat.lt_succ_of_le (calls.le_max' k hk)
    calc (calls.card : K)
      _ ≤ admittedIn (b.grants t) (calls.min' hsome) (calls.max' hsome + 1) :=
          Nat.cast_le.mpr (Finset.card_le_card hsub)
      _ ≤ b.capacity + b.rate * (t (calls.max' hsome) - t (calls.min' hsome)) :=
          granted_le hlast hfull (hpos _ (Finset.mem_Icc.mp hi).2) (Finset.mem_Icc.mp hj).1
            (calls.min'_le _ (calls.max'_mem hsome))
      _ ≤ b.capacity + b.rate * length := by
          have hspan := mul_le_mul_of_nonneg_left
            (show t (calls.max' hsome) - t (calls.min' hsome) ≤ length by linarith) hrate
          linarith

/-- A full bucket keeps to the envelope. -/
theorem envelope (hlast : b.last = t 0) (hfull : b.tokens = b.capacity) (hrate : 0 ≤ b.rate)
    (hcapacity : 0 ≤ b.capacity) (hmono : ∀ k < n, t k ≤ t (k + 1)) :
    Envelope b.capacity b.rate t n (b.grants t) fun i => (b.asked t i).tokens := by
  have hpos := asked_tokens_nonneg hlast hfull hrate hcapacity hmono
  have hiff : ∀ i, 1 ≤ i → i ≤ n → (b.grants t i = true ↔ ∀ j ≤ i,
      (admittedIn (b.grants t) (max j 1) i : K) + 1 ≤ b.capacity + b.rate * (t i - t j)) := by
    intro i hi _
    obtain ⟨i, rfl⟩ := Nat.exists_eq_add_of_le' hi
    exact grants_iff hlast hfull
  refine ⟨hiff, fun start length => window_le hlast hfull hrate hcapacity hpos start,
    fun i hi hin hall => (hiff i hi hin).mpr fun j hj => ?_,
    fun i hi => ⟨hpos i hi, asked_tokens_le hfull i⟩⟩
  have hfew : (admittedIn (b.grants t) (max j 1) i : K) ≤ ((i - max j 1 : ℕ) : K) :=
    Nat.cast_le.mpr (admittedIn_le _ _ _)
  have hcall := hall j hj
  linarith

end Bucket

end Lib
