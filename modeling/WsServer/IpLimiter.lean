import Mathlib.Data.List.Perm.Basic
import WsServer.Externals
import WsServer.Lib.Sync

/-! The token bucket and the per-IP limiter (`ip_limiter.rs`). `try_acquire` is the reap scan, one
    `remove_if` a victim, and the admission under the entry lock; the three are separate definitions
    because other callers can run between them. Every `Instant::now()` inside one such step is the
    same `now`. The order in which the table is scanned is a parameter of the scan. -/

namespace WsServer

open Lib

/-! ### Token bucket -/

structure TokenBucket (F : Type) where
  capacity : F
  tokens : F
  refillPerSecond : F
  lastRefill : ℕ

namespace TokenBucket

variable {F : Type} [F64 F]

def new (now : ℕ) (refillPerSecond burst : F) : TokenBucket F :=
  let capacity := max burst 1
  { capacity := capacity, tokens := capacity, refillPerSecond := max refillPerSecond 1,
    lastRefill := now }

/-- `duration_since` saturates at zero, as subtraction on `ℕ` does. -/
def refill (now : ℕ) (b : TokenBucket F) : TokenBucket F :=
  let elapsed := now - b.lastRefill
  { b with
    lastRefill := now
    tokens := min (b.tokens + F64.asSecs elapsed * b.refillPerSecond) b.capacity }

def tryConsume (now : ℕ) (b : TokenBucket F) : Bool × TokenBucket F :=
  let b := b.refill now
  if 1 ≤ b.tokens then (true, { b with tokens := b.tokens - 1 }) else (false, b)

end TokenBucket

/-! ### The limiter -/

structure IpState (F : Type) where
  concurrent : UInt32
  bucket : TokenBucket F
  lastSeen : ℕ

/-- Five minutes. -/
def idleTtl : ℕ := 5 * 60 * 1000000000

structure IpLimiter (F : Type) where
  maxConcurrent : Option UInt32
  rateConfigured : Bool
  refillPerSecond : F
  burst : F
  states : Dict IpAddr (IpState F)

inductive IpRejection where | rateLimited | concurrencyLimited
  deriving DecidableEq

namespace IpLimiter

variable {F : Type}

/-- `v as u32` keeps the low 32 bits. -/
def fromConfig [F64 F] (config : Config) : Option (IpLimiter F) :=
  let maxConcurrent := config.ipMaxConcurrent.map UInt32.ofNat
  let rate : Option F := config.ipConnectionRate.map F64.ofU32
  let burst := (config.ipRateBurst.map F64.ofU32).or (rate.map fun r => max r 1)
  if maxConcurrent.isNone && rate.isNone then none
  else some
    { maxConcurrent := maxConcurrent, rateConfigured := rate.isSome,
      refillPerSecond := rate.getD 1, burst := burst.getD 1, states := ∅ }

/-- `concurrent == 0 && now.duration_since(last_seen) > IDLE_TTL` -/
def isIdle (now : ℕ) (st : IpState F) : Bool :=
  st.concurrent = 0 && idleTtl < now - st.lastSeen

/-- The scan of `reap_idle`: the first 64 idle entries in the order of iteration. -/
def reapScan (now : ℕ) (order : List IpAddr) (lim : IpLimiter F) : List IpAddr :=
  (order.filter fun ip =>
    match lim.states.lookup ip with
    | some st => isIdle now st
    | none => false).take 64

/-- One `remove_if` of `reap_idle`: the entry goes only if it is idle now. -/
def reapRemove (now : ℕ) (lim : IpLimiter F) (ip : IpAddr) : IpLimiter F :=
  match lim.states.lookup ip with
  | some st => if isIdle now st then { lim with states := lim.states.erase ip } else lim
  | none => lim

def reapIdle (now : ℕ) (order : List IpAddr) (lim : IpLimiter F) : IpLimiter F :=
  (lim.reapScan now order).foldl (reapRemove now) lim

/-- `entry(ip).or_insert_with(..)` -/
def entry [F64 F] (now : ℕ) (ip : IpAddr) (lim : IpLimiter F) : IpState F :=
  (lim.states.lookup ip).getD
    { concurrent := 0, bucket := TokenBucket.new now lim.refillPerSecond lim.burst, lastSeen := now }

def put (ip : IpAddr) (st : IpState F) (lim : IpLimiter F) : IpLimiter F :=
  { lim with states := lim.states.insert ip st }

/-- The rate check; without a configured rate the bucket is not touched. -/
def rateCheck [F64 F] (now : ℕ) (ip : IpAddr) (lim : IpLimiter F) : Bool × TokenBucket F :=
  let st := lim.entry now ip
  if lim.rateConfigured then st.bucket.tryConsume now else (true, st.bucket)

/-- The concurrent cap is reached. -/
def capReached [F64 F] (ip : IpAddr) (now : ℕ) (lim : IpLimiter F) : Bool :=
  match lim.maxConcurrent with
  | some cap => cap ≤ (lim.entry now ip).concurrent
  | none => false

/-- The admission of `try_acquire`, under the entry lock. -/
def admission [F64 F] (now : ℕ) (ip : IpAddr) (lim : IpLimiter F) :
    Except IpRejection Unit × IpLimiter F :=
  let st := { lim.entry now ip with bucket := (lim.rateCheck now ip).2 }
  if !(lim.rateCheck now ip).1 then (.error .rateLimited, lim.put ip st)
  else if lim.capReached ip now then (.error .concurrencyLimited, lim.put ip st)
  else (.ok (), lim.put ip { st with concurrent := st.concurrent + 1, lastSeen := now })

/-- `try_acquire`, run without interruption. -/
def tryAcquire [F64 F] (now : ℕ) (order : List IpAddr) (ip : IpAddr) (lim : IpLimiter F) :
    Except IpRejection Unit × IpLimiter F :=
  (lim.reapIdle now order).admission now ip

/-- `release`, the drop of an `IpPermit`. -/
def release (now : ℕ) (ip : IpAddr) (lim : IpLimiter F) : IpLimiter F :=
  match lim.states.lookup ip with
  | some st =>
    lim.put ip
      { st with
        concurrent := if 0 < st.concurrent then st.concurrent - 1 else st.concurrent
        lastSeen := now }
  | none => lim

/-! ### What the operations do to the count of an address -/

/-- The count of an address, zero without an entry. -/
def concurrentOf (lim : IpLimiter F) (ip : IpAddr) : UInt32 :=
  match lim.states.lookup ip with
  | some st => st.concurrent
  | none => 0

theorem fromConfig_states [F64 F] {config : Config} {lim : IpLimiter F}
    (h : fromConfig config = some lim) : lim.states = ∅ := by
  simp only [fromConfig] at h
  split at h <;> cases h
  rfl

@[simp] theorem put_maxConcurrent (ip : IpAddr) (st : IpState F) (lim : IpLimiter F) :
    (lim.put ip st).maxConcurrent = lim.maxConcurrent := rfl

theorem concurrentOf_put (lim : IpLimiter F) (ip ip' : IpAddr) (st : IpState F) :
    (lim.put ip st).concurrentOf ip' = if ip' = ip then st.concurrent else lim.concurrentOf ip' := by
  by_cases he : ip' = ip <;> simp [concurrentOf, put, he]

theorem entry_concurrent [F64 F] (now : ℕ) (ip : IpAddr) (lim : IpLimiter F) :
    (lim.entry now ip).concurrent = lim.concurrentOf ip := by
  unfold entry concurrentOf
  cases lim.states.lookup ip <;> rfl

/-- Reaping removes only entries that count nothing. -/
theorem concurrentOf_reapRemove (now : ℕ) (lim : IpLimiter F) (ip ip' : IpAddr) :
    (lim.reapRemove now ip).concurrentOf ip' = lim.concurrentOf ip' := by
  unfold reapRemove
  cases hl : lim.states.lookup ip with
  | none => rfl
  | some st =>
    simp only
    split
    · rename_i hidle
      have hz : st.concurrent = 0 := by
        simp only [isIdle, Bool.and_eq_true, decide_eq_true_eq] at hidle; exact hidle.1
      by_cases he : ip' = ip
      · subst he; simp [concurrentOf, hl, hz]
      · simp [concurrentOf, he]
    · rfl

@[simp] theorem reapRemove_maxConcurrent (now : ℕ) (lim : IpLimiter F) (ip : IpAddr) :
    (lim.reapRemove now ip).maxConcurrent = lim.maxConcurrent := by
  unfold reapRemove
  split
  · split <;> rfl
  · rfl

theorem reapIdle_spec (now : ℕ) (order : List IpAddr) (lim : IpLimiter F) :
    (lim.reapIdle now order).maxConcurrent = lim.maxConcurrent ∧
      ∀ ip, (lim.reapIdle now order).concurrentOf ip = lim.concurrentOf ip := by
  unfold reapIdle
  generalize lim.reapScan now order = victims
  induction victims generalizing lim with
  | nil => exact ⟨rfl, fun _ => rfl⟩
  | cons v vs ih =>
    obtain ⟨h1, h2⟩ := ih (lim.reapRemove now v)
    exact ⟨h1.trans (reapRemove_maxConcurrent now lim v),
      fun ip => (h2 ip).trans (concurrentOf_reapRemove now lim v ip)⟩

@[simp] theorem admission_maxConcurrent [F64 F] (now : ℕ) (ip : IpAddr) (lim : IpLimiter F) :
    (lim.admission now ip).2.maxConcurrent = lim.maxConcurrent := by
  unfold admission
  split
  · rfl
  · split <;> rfl

/-- An admission counts one more for its address; a refusal changes no count. -/
theorem concurrentOf_admission [F64 F] (now : ℕ) (lim : IpLimiter F) (ip ip' : IpAddr) :
    (lim.admission now ip).2.concurrentOf ip' =
      if ip' = ip ∧ (lim.admission now ip).1 = .ok () then lim.concurrentOf ip' + 1
      else lim.concurrentOf ip' := by
  unfold admission
  split
  · rw [concurrentOf_put]
    split
    · subst ip'; simp [entry_concurrent]
    · simp [*]
  · split
    · rw [concurrentOf_put]
      split
      · subst ip'; simp [entry_concurrent]
      · simp [*]
    · rw [concurrentOf_put]
      split
      · subst ip'; simp [entry_concurrent]
      · simp [*]

/-- The three outcomes of an admission. -/
theorem admission_result [F64 F] (now : ℕ) (ip : IpAddr) (lim : IpLimiter F) :
    (lim.admission now ip).1 =
      if (lim.rateCheck now ip).1 = false then .error .rateLimited
      else if lim.capReached ip now then .error .concurrencyLimited else .ok () := by
  unfold admission
  cases (lim.rateCheck now ip).1 with
  | false => rfl
  | true =>
    simp only [Bool.not_true, Bool.false_eq_true, ↓reduceIte, reduceCtorEq]
    split <;> rfl

theorem capReached_iff [F64 F] (ip : IpAddr) (now : ℕ) (lim : IpLimiter F) :
    lim.capReached ip now = true ↔
      ∃ cap, lim.maxConcurrent = some cap ∧ cap ≤ lim.concurrentOf ip := by
  unfold capReached
  cases lim.maxConcurrent <;> simp [entry_concurrent]

@[simp] theorem release_maxConcurrent (now : ℕ) (ip : IpAddr) (lim : IpLimiter F) :
    (lim.release now ip).maxConcurrent = lim.maxConcurrent := by
  unfold release
  split <;> rfl

/-- A release counts one less for its address, unless the count is zero already. -/
theorem concurrentOf_release (now : ℕ) (lim : IpLimiter F) (ip ip' : IpAddr) :
    (lim.release now ip).concurrentOf ip' =
      if ip' = ip ∧ 0 < lim.concurrentOf ip' then lim.concurrentOf ip' - 1
      else lim.concurrentOf ip' := by
  unfold release
  cases hl : lim.states.lookup ip with
  | none =>
    have hz : lim.concurrentOf ip = 0 := by simp [concurrentOf, hl]
    rw [if_neg]
    rintro ⟨rfl, hpos⟩
    rw [hz] at hpos; exact absurd hpos (by decide)
  | some st =>
    have hc : lim.concurrentOf ip = st.concurrent := by simp [concurrentOf, hl]
    simp only [concurrentOf_put]
    by_cases he : ip' = ip
    · subst he; simp [hc]
    · simp [he]

/-- As numbers: a release takes one away where it can. -/
theorem toNat_release (now : ℕ) (lim : IpLimiter F) (ip ip' : IpAddr) :
    ((lim.release now ip).concurrentOf ip').toNat =
      if ip' = ip then (lim.concurrentOf ip').toNat - 1 else (lim.concurrentOf ip').toNat := by
  rw [concurrentOf_release]
  by_cases he : ip' = ip
  · subst he
    by_cases hpos : 0 < lim.concurrentOf ip'
    · have hle : 1 ≤ lim.concurrentOf ip' := by
        rw [UInt32.le_iff_toNat_le]
        exact UInt32.lt_iff_toNat_lt.mp hpos
      rw [if_pos ⟨rfl, hpos⟩, if_pos rfl, UInt32.toNat_sub_of_le _ _ hle]
      rfl
    · have hzero : (lim.concurrentOf ip').toNat = 0 := by
        rw [UInt32.lt_iff_toNat_lt] at hpos
        exact Nat.eq_zero_of_not_pos hpos
      rw [if_neg fun h => hpos h.2, if_pos rfl, hzero]
  · rw [if_neg fun h => he h.1, if_neg he]

/-- A count that is one up, unless it wrapped. -/
theorem toNat_succ_le (n : UInt32) : (n + 1).toNat ≤ n.toNat + 1 := by
  rw [UInt32.toNat_add]
  exact Nat.mod_le _ _

theorem toNat_succ {n : UInt32} (h : n.toNat + 1 < 2 ^ 32) : (n + 1).toNat = n.toNat + 1 := by
  rw [UInt32.toNat_add]
  exact Nat.mod_eq_of_lt h

/-- Under a cap an admission finds a place below it. -/
theorem lt_cap_of_admission [F64 F] {now : ℕ} {ip : IpAddr} {lim : IpLimiter F} {cap : UInt32}
    (h : (lim.admission now ip).1 = .ok ()) (hcap : lim.maxConcurrent = some cap) :
    (lim.concurrentOf ip).toNat < cap.toNat := by
  rw [admission_result] at h
  split at h
  · cases h
  · split at h
    · cases h
    · rename_i hno
      by_contra hle
      exact hno ((capReached_iff ip now lim).mpr
        ⟨cap, hcap, UInt32.le_iff_toNat_le.mpr (Nat.le_of_not_lt hle)⟩)

end IpLimiter

end WsServer
