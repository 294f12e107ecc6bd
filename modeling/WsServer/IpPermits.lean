import WsServer.Server

/-! The IP limiter under concurrent callers. A `Caller` is one `try_acquire` and, where it got one, the
    permit: the reap scan, each `remove_if`, the admission and the release are steps of their own, and
    other callers and the clock move in between. A `remove_if` decides by the time of its scan, which
    may be long past. -/

namespace WsServer

open Lib

variable {F : Type} [F64 F]

/-- The limiter and the clock. -/
structure LimiterWorld (F : Type) where
  limiter : IpLimiter F
  now : ℕ

inductive CallerPc where
  | called
  | reaping (since : ℕ) (victims : List IpAddr)
  | holding
  | refused (r : IpRejection)
  | dropped

structure Caller where
  ip : IpAddr
  pc : CallerPc

inductive CallerAct where
  | scan (order : List IpAddr)
  | remove
  | admission
  | drop

namespace Caller

def isHolding (c : Caller) : Bool :=
  match c.pc with
  | .holding => true
  | _ => false

def admission (s : LimiterWorld F) (c : Caller) : LimiterWorld F × Caller :=
  match s.limiter.admission s.now c.ip with
  | (.ok (), lim) => ({ s with limiter := lim }, { c with pc := .holding })
  | (.error r, lim) => ({ s with limiter := lim }, { c with pc := .refused r })

def step (s : LimiterWorld F) (_ : ℕ) (c : Caller) : CallerAct → Option (LimiterWorld F × Caller)
  | .scan order =>
    match c.pc with
    | .called =>
      if order.isPerm s.limiter.states.keys then
        some (s, { c with pc := .reaping s.now (s.limiter.reapScan s.now order) })
      else none
    | _ => none
  | .remove =>
    match c.pc with
    | .reaping since (ip :: rest) =>
      some ({ s with limiter := s.limiter.reapRemove since ip }, { c with pc := .reaping since rest })
    | _ => none
  | .admission =>
    match c.pc with
    | .reaping _ [] => some (admission s c)
    | _ => none
  | .drop =>
    match c.pc with
    | .holding =>
      some ({ s with limiter := s.limiter.release s.now c.ip }, { c with pc := .dropped })
    | _ => none

end Caller

/-- Any number of callers over one limiter; a request is an address, the environment passes time. -/
def callers (F : Type) [F64 F] : Prog (LimiterWorld F) Caller IpAddr CallerAct ℕ :=
  { start := fun ip => { ip := ip, pc := .called }
    step := Caller.step
    env := fun s d => some { s with now := s.now + d } }

abbrev LimiterState (F : Type) := Pool (LimiterWorld F) Caller

/-- What a caller holds of an address. -/
def Caller.held (ip : IpAddr) (c : Caller) : ℕ := if c.ip = ip ∧ c.isHolding = true then 1 else 0

/-- The permits of an address that are outstanding. -/
def outstanding (p : LimiterState F) (ip : IpAddr) : ℕ := (p.threads.map (Caller.held ip)).sum

/-- Fewer than 2^32 permits of each address are outstanding after the step. -/
def permitsFit (p : LimiterState F) (a : Act IpAddr CallerAct ℕ) : Prop :=
  ∀ p', (callers F).next p a = some p' → ∀ ip, outstanding p' ip < 2 ^ 32

/-- The states that a limiter reaches, starting without callers. -/
def LimiterRuns (lim : IpLimiter F) (p : LimiterState F) : Prop :=
  Reach (callers F).next permitsFit { shared := { limiter := lim, now := 0 }, threads := [] } p

/-! ### The count -/

/-- The count of an address is the number `m` of its outstanding permits, which the cap bounds. -/
structure Counted (maxConcurrent : Option UInt32) (ip : IpAddr) (lim : IpLimiter F) (m : ℕ) : Prop where
  cap : lim.maxConcurrent = maxConcurrent
  count : (lim.concurrentOf ip).toNat = m
  bound : ∀ cap, maxConcurrent = some cap → m ≤ cap.toNat

omit [F64 F] in
/-- A step that neither takes nor gives a permit, and leaves the counts alone. -/
theorem Counted.still {maxConcurrent : Option UInt32} {ip : IpAddr} {lim lim' : IpLimiter F} {m m' : ℕ}
    (h : Counted maxConcurrent ip lim m) (hcap : lim'.maxConcurrent = lim.maxConcurrent)
    (hcount : lim'.concurrentOf ip = lim.concurrentOf ip) (hm : m' = m) :
    Counted maxConcurrent ip lim' m' := by
  subst hm
  exact ⟨hcap.trans h.cap, by rw [hcount]; exact h.count, h.bound⟩

theorem Caller.held_of_not {ip : IpAddr} {c : Caller} (h : c.isHolding = false) : c.held ip = 0 := by
  rw [Caller.held, if_neg]
  rintro ⟨-, ht⟩
  rw [h] at ht; cases ht

theorem Caller.held_of {ip : IpAddr} {c : Caller} (h : c.isHolding = true) :
    c.held ip = if ip = c.ip then 1 else 0 := by
  rw [Caller.held]
  by_cases he : c.ip = ip
  · rw [if_pos ⟨he, h⟩, if_pos he.symm]
  · rw [if_neg fun hc => he hc.1, if_neg fun hc => he hc.symm]

theorem counted_admission {maxConcurrent : Option UInt32} {ip : IpAddr} {s : LimiterWorld F} {r : ℕ}
    {c : Caller} (hpc : c.isHolding = false)
    (hfit : (Caller.admission s c).2.held ip + r < 2 ^ 32)
    (h : Counted maxConcurrent ip s.limiter (c.held ip + r)) :
    Counted maxConcurrent ip (Caller.admission s c).1.limiter
      ((Caller.admission s c).2.held ip + r) := by
  have hcount := IpLimiter.concurrentOf_admission s.now s.limiter c.ip ip
  have hcap := IpLimiter.admission_maxConcurrent s.now c.ip s.limiter
  have hlt : ∀ cap, (s.limiter.admission s.now c.ip).1 = .ok () →
      s.limiter.maxConcurrent = some cap → (s.limiter.concurrentOf c.ip).toNat < cap.toNat :=
    fun _ => IpLimiter.lt_cap_of_admission
  rw [Caller.held_of_not hpc, Nat.zero_add] at h
  unfold Caller.admission at hfit ⊢
  split <;> rename_i lim hres <;> rw [hres] at hcount hcap hlt
  · simp only [hres] at hfit
    rw [Caller.held_of rfl] at hfit ⊢
    by_cases he : ip = c.ip
    · subst he
      rw [if_pos ⟨rfl, rfl⟩] at hcount
      rw [if_pos rfl] at hfit ⊢
      have hone : (lim.concurrentOf c.ip).toNat = 1 + r := by
        rw [hcount, IpLimiter.toNat_succ (by rw [h.count]; omega), h.count, Nat.add_comm]
      refine ⟨hcap.trans h.cap, hone, fun cap hc => ?_⟩
      have hbelow := hlt cap rfl (h.cap.trans hc)
      rw [h.count] at hbelow
      omega
    · rw [if_neg fun hc => he hc.1] at hcount
      rw [if_neg he]
      exact h.still hcap hcount (Nat.zero_add r)
  · rw [if_neg (by rintro ⟨-, hc⟩; cases hc)] at hcount
    rw [Caller.held_of_not rfl]
    exact h.still hcap hcount (Nat.zero_add r)

theorem counted_step {maxConcurrent : Option UInt32} {ip : IpAddr} {s s' : LimiterWorld F} {i r : ℕ}
    {c c' : Caller} {a : CallerAct} (hs : Caller.step s i c a = some (s', c'))
    (hfit : c'.held ip + r < 2 ^ 32) (h : Counted maxConcurrent ip s.limiter (c.held ip + r)) :
    Counted maxConcurrent ip s'.limiter (c'.held ip + r) := by
  have hold : ∀ {d : Caller} {pc : CallerPc}, d.pc = pc → d.isHolding =
      match pc with | .holding => true | _ => false := by
    rintro d pc rfl; rfl
  cases a with
  | scan order =>
    simp only [Caller.step] at hs
    split at hs
    · rename_i hpc
      split at hs <;> cases hs
      refine h.still rfl rfl ?_
      rw [Caller.held_of_not rfl, Caller.held_of_not (hold hpc)]
    · cases hs
  | remove =>
    simp only [Caller.step] at hs
    split at hs <;> cases hs
    rename_i since v rest hpc
    refine h.still (IpLimiter.reapRemove_maxConcurrent _ _ _)
      (IpLimiter.concurrentOf_reapRemove _ _ _ _) ?_
    rw [Caller.held_of_not rfl, Caller.held_of_not (hold hpc)]
  | admission =>
    simp only [Caller.step] at hs
    split at hs
    · rename_i hpc
      rw [Option.some.injEq] at hs
      have hadm := counted_admission (s := s) (c := c) (hold hpc) (by rw [hs]; exact hfit) h
      rw [hs] at hadm
      exact hadm
    · cases hs
  | drop =>
    simp only [Caller.step] at hs
    split at hs <;> cases hs
    rename_i hpc
    have hrel := IpLimiter.toNat_release s.now s.limiter c.ip ip
    rw [Caller.held_of (hold hpc)] at h
    rw [Caller.held_of_not rfl, Nat.zero_add]
    refine ⟨(IpLimiter.release_maxConcurrent _ _ _).trans h.cap, ?_, fun cap hc => ?_⟩
    · rw [hrel, h.count]
      split <;> omega
    · exact (Nat.le_add_left r _).trans (h.bound cap hc)

theorem counted_run {lim : IpLimiter F} (hempty : lim.states = ∅) {p : LimiterState F}
    (h : LimiterRuns lim p) (ip : IpAddr) :
    Counted lim.maxConcurrent ip p.shared.limiter (outstanding p ip) := by
  refine Prog.sum_rule (R := fun s m => Counted lim.maxConcurrent ip s.limiter m) ?_ ?_ ?_ ?_ h
  · refine ⟨rfl, ?_, fun _ _ => Nat.zero_le _⟩
    simp [IpLimiter.concurrentOf, hempty]
  · exact fun _ => Caller.held_of_not rfl
  · rintro p i c a s' c' r - hok hc (hs : Caller.step p.shared i c a = some (s', c')) hsum hR
    refine counted_step hs ?_ hR
    have hnext : (callers F).next p (.run i a) = some ⟨s', p.threads.set i c'⟩ := by
      simp only [Prog.next, hc, Option.bind_some, callers, hs, Option.map_some]
    have hfit := hok _ hnext ip
    rw [outstanding, hsum] at hfit
    exact hfit
  · rintro s e s' m hR he
    cases he
    exact hR

omit [F64 F] in
/-- A caller with a permit counts. -/
theorem outstanding_pos {p : LimiterState F} {i : ℕ} {c : Caller} (hc : p.threads[i]? = some c)
    (hhold : c.isHolding = true) : 0 < outstanding p c.ip := by
  obtain ⟨r, hsum, -⟩ := sum_map_set (Caller.held c.ip) hc
  rw [outstanding, hsum, Caller.held_of hhold, if_pos rfl]
  omega

omit [F64 F] in
/-- A `remove_if` leaves entries alone that count something. -/
theorem reapRemove_keeps {lim : IpLimiter F} {now : ℕ} {ip ip' : IpAddr}
    (h : 0 < (lim.concurrentOf ip').toNat) :
    (lim.reapRemove now ip).states.lookup ip' = lim.states.lookup ip' := by
  unfold IpLimiter.reapRemove
  split
  · rename_i st hl
    split
    · rename_i hidle
      simp only [Dict.lookup_erase_if]
      split
      · -- an idle entry counts nothing
        subst ip'
        simp only [IpLimiter.isIdle, Bool.and_eq_true, decide_eq_true_eq] at hidle
        simp [IpLimiter.concurrentOf, hl, hidle.1] at h
      · rfl
    · rfl
  · rfl

/-- The accounts of the limiter and what they are good for. -/
structure LimiterAccounts (p : LimiterState F) : Prop where
  count : ∀ ip, (p.shared.limiter.concurrentOf ip).toNat = outstanding p ip
  reap : ∀ i p' ip, (callers F).next p (.run i .remove) = some p' → 0 < outstanding p ip →
    p'.shared.limiter.states.lookup ip = p.shared.limiter.states.lookup ip
  release : ∀ (i : ℕ) (c : Caller), p.threads[i]? = some c → c.isHolding = true →
    ∃ st, p.shared.limiter.states.lookup c.ip = some st ∧ 0 < st.concurrent
  refused : ∀ (i : ℕ) (p' : LimiterState F) (c c' : Caller), p.threads[i]? = some c →
    (callers F).next p (.run i .admission) = some p' → p'.threads[i]? = some c' →
    (c'.pc = .refused .concurrencyLimited ↔
      (p.shared.limiter.rateCheck p.shared.now c.ip).1 = true ∧
        ∃ cap, p.shared.limiter.maxConcurrent = some cap ∧ outstanding p c.ip = cap.toNat)

/-- The outcome of an admission in terms of the outstanding permits. -/
theorem refused_iff {maxConcurrent : Option UInt32} {s : LimiterWorld F} {c : Caller} {m : ℕ}
    (h : Counted maxConcurrent c.ip s.limiter m) :
    (Caller.admission s c).2.pc = .refused .concurrencyLimited ↔
      (s.limiter.rateCheck s.now c.ip).1 = true ∧
        ∃ cap, s.limiter.maxConcurrent = some cap ∧ m = cap.toNat := by
  have hres := IpLimiter.admission_result s.now c.ip s.limiter
  have hcap : s.limiter.capReached c.ip s.now = true ↔
      ∃ cap, s.limiter.maxConcurrent = some cap ∧ m = cap.toNat := by
    rw [IpLimiter.capReached_iff]
    constructor
    · rintro ⟨cap, hc, hle⟩
      have hle' := UInt32.le_iff_toNat_le.mp hle
      have hbound := h.bound cap (h.cap.symm.trans hc)
      rw [h.count] at hle'
      exact ⟨cap, hc, by omega⟩
    · rintro ⟨cap, hc, hm⟩
      exact ⟨cap, hc, UInt32.le_iff_toNat_le.mpr (by rw [h.count, hm])⟩
  unfold Caller.admission
  rw [← hcap]
  split <;> rename_i lim hadm <;> rw [hadm] at hres
  · refine ⟨nofun, fun ⟨hrate, hreached⟩ => ?_⟩
    simp [hrate, hreached] at hres
  · rename_i reason
    simp only [CallerPc.refused.injEq]
    constructor
    · rintro rfl
      split at hres
      · cases hres
      · rename_i hrate
        split at hres
        · exact ⟨by simpa using hrate, ‹_›⟩
        · cases hres
    · rintro ⟨hrate, hreached⟩
      simpa [hrate, hreached] using hres

theorem limiter_accounts {config : Config} {lim : IpLimiter F} {p : LimiterState F}
    (hlim : IpLimiter.fromConfig config = some lim) (h : LimiterRuns lim p) : LimiterAccounts p := by
  have hcount := counted_run (IpLimiter.fromConfig_states hlim) h
  refine ⟨fun ip => (hcount ip).count, ?_, ?_, ?_⟩
  · -- reap
    rintro i p' ip hs hpos
    obtain ⟨c, s', c', -, (hstep : Caller.step p.shared i c .remove = some (s', c')), rfl⟩ :=
      Prog.next_run hs
    simp only [Caller.step] at hstep
    split at hstep <;> cases hstep
    exact reapRemove_keeps (by rw [(hcount ip).count]; exact hpos)
  · -- release
    rintro i c hc hhold
    have hpos := outstanding_pos hc hhold
    rw [← (hcount c.ip).count] at hpos
    unfold IpLimiter.concurrentOf at hpos
    split at hpos
    · rename_i st hl
      exact ⟨st, hl, UInt32.lt_iff_toNat_lt.mpr hpos⟩
    · exact absurd hpos (by decide)
  · -- refused
    rintro i p' c c' hc hs hc'
    obtain ⟨d, s', d', hd, (hstep : Caller.step p.shared i d .admission = some (s', d')), rfl⟩ :=
      Prog.next_run hs
    obtain rfl : c = d := Option.some.inj (hc.symm.trans hd)
    obtain rfl : d' = c' := by
      rw [List.getElem?_set_self (List.getElem?_eq_some_iff.mp hc).1] at hc'
      exact Option.some.inj hc'
    simp only [Caller.step] at hstep
    split at hstep
    · rw [Option.some.injEq] at hstep
      have hiff := refused_iff (hcount c.ip)
      rw [hstep] at hiff
      exact hiff
    · cases hstep

/-- With few callers the permits fit. -/
theorem permitsFit_of_few {p : LimiterState F} {a : Act IpAddr CallerAct ℕ}
    (h : p.threads.length + 1 < 2 ^ 32) : permitsFit p a := by
  rintro p' hs ip
  have hlen : p'.threads.length ≤ p.threads.length + 1 := by
    cases a with
    | spawn ip => cases hs; simp
    | env d => cases hs; exact Nat.le_succ _
    | run i b =>
      obtain ⟨c, s', c', -, -, rfl⟩ := Prog.next_run hs
      simp
  have hsum : ∀ l : List Caller, (l.map (Caller.held ip)).sum ≤ l.length := by
    intro l
    induction l with
    | nil => exact le_rfl
    | cons c l ih =>
      have hone : c.held ip ≤ 1 := by unfold Caller.held; split <;> omega
      rw [List.map_cons, List.sum_cons, List.length_cons]
      omega
  have hle := hsum p'.threads
  unfold outstanding
  omega

/-- One connection for each address. -/
def Config.onePerIp : Config := { Config.plain with ipMaxConcurrent := some 1 }

/-- The limiter of that configuration. -/
def onePerIp : IpLimiter ℚ :=
  { maxConcurrent := some 1, rateConfigured := false, refillPerSecond := 1, burst := 1, states := ∅ }

/-- Two callers of one address, of which the second is refused. -/
def twoCallers : List (Act IpAddr CallerAct ℕ) :=
  [.spawn (.v4 1), .run 0 (.scan []), .run 0 .admission, .spawn (.v4 1), .run 1 (.scan [.v4 1]),
    .run 1 .admission]

theorem limiter_accounts_two : ∃ p : LimiterState ℚ,
    outstanding p (.v4 1) = 1 ∧ LimiterAccounts p := by
  have hplay : (exec (callers ℚ).next (fun p _ => p.threads.length + 1 < 2 ^ 32)
      ⟨{ limiter := onePerIp, now := 0 }, []⟩ twoCallers).map
      (fun p => decide (outstanding p (.v4 1) = 1)) = some true := by decide +kernel
  obtain ⟨p, hp, hc⟩ := exec_check hplay
  have hlim : IpLimiter.fromConfig Config.onePerIp = some onePerIp := rfl
  refine ⟨p, of_decide_eq_true hc, limiter_accounts hlim (hp.mono fun p a h => ?_)⟩
  exact permitsFit_of_few (of_decide_eq_true h)

end WsServer
