import Mathlib.Data.List.Induction

/-! Runs of a machine given by an executable, possibly blocking step function. `Reach` collects the
    states of all runs whose steps meet a side condition `ok`, so a restricted family of schedules is
    the same machine under a stronger `ok`. `exec` plays one list of actions and checks a decidable
    side condition on the way. -/

namespace Lib

variable {σ α : Type*}

/-- Play the actions in order; `none` when one of them is not enabled or does not meet `ok`. -/
def exec (step : σ → α → Option σ) (ok : σ → α → Bool) : σ → List α → Option σ
  | s, [] => some s
  | s, a :: as => if ok s a then (step s a).bind fun s' => exec step ok s' as else none

/-- The states reached from `s₀` by runs whose steps all meet `ok`. -/
inductive Reach (step : σ → α → Option σ) (ok : σ → α → Prop) (s₀ : σ) : σ → Prop
  | refl : Reach step ok s₀ s₀
  | tail {s s' : σ} {a : α} : Reach step ok s₀ s → ok s a → step s a = some s' →
      Reach step ok s₀ s'

/-- The side condition of an unrestricted run. -/
def always : σ → α → Prop := fun _ _ => True

namespace Reach

variable {step : σ → α → Option σ} {ok : σ → α → Prop} {s₀ s₁ s₂ : σ}

/-- An inductive invariant holds in every reached state. The step may use that its source is
    reachable, so facts already proved are at hand. -/
theorem invariant {I : σ → Prop} (h0 : I s₀)
    (hstep : ∀ s a s', Reach step ok s₀ s → I s → ok s a → step s a = some s' → I s')
    (h : Reach step ok s₀ s₁) : I s₁ := by
  induction h with
  | refl => exact h0
  | tail hr hok hs ih => exact hstep _ _ _ hr ih hok hs

theorem trans (h₁ : Reach step ok s₀ s₁) (h₂ : Reach step ok s₁ s₂) : Reach step ok s₀ s₂ := by
  induction h₂ with
  | refl => exact h₁
  | tail _ hok hs ih => exact .tail ih hok hs

/-- A run under a stronger side condition is a run under a weaker one. -/
theorem mono {ok' : σ → α → Prop} (hok : ∀ s a, ok s a → ok' s a)
    (h : Reach step ok s₀ s₁) : Reach step ok' s₀ s₁ := by
  induction h with
  | refl => exact .refl
  | tail _ ha hs ih => exact .tail ih (hok _ _ ha) hs

theorem toAlways (h : Reach step ok s₀ s₁) : Reach step always s₀ s₁ :=
  h.mono fun _ _ _ => trivial

end Reach

/-- What `exec` plays is a run under its side condition. -/
theorem exec_reach {step : σ → α → Option σ} {ok : σ → α → Bool} : ∀ {as : List α} {s s' : σ},
    exec step ok s as = some s' → Reach step (fun s a => ok s a = true) s s'
  | [], s, s', h => by
      rw [exec, Option.some.injEq] at h; subst h; exact .refl
  | a :: as, s, s', h => by
      rw [exec, Option.ite_none_right_eq_some, Option.bind_eq_some_iff] at h
      obtain ⟨hok, t, ht, hrest⟩ := h
      exact Reach.trans (.tail .refl hok ht) (exec_reach hrest)

/-- A played list of actions and a check of the state it ends in. -/
theorem exec_check {step : σ → α → Option σ} {ok : σ → α → Bool} {as : List α} {s : σ}
    {check : σ → Bool} (h : (exec step ok s as).map check = some true) :
    ∃ s', Reach step (fun s a => ok s a = true) s s' ∧ check s' = true := by
  rw [Option.map_eq_some_iff] at h
  obtain ⟨s', hs, hc⟩ := h
  exact ⟨s', exec_reach hs, hc⟩

/-- Playing one action more. -/
theorem exec_concat {step : σ → α → Option σ} {ok : σ → α → Bool} {a : α} : ∀ {as : List α} {s s' : σ},
    exec step ok s (as ++ [a]) = some s' ↔
      ∃ t, exec step ok s as = some t ∧ ok t a = true ∧ step t a = some s'
  | [], s, s' => by simp [exec]
  | b :: as, s, s' => by
      simp only [List.cons_append, exec, Option.ite_none_right_eq_some, Option.bind_eq_some_iff,
        exec_concat]
      constructor
      · rintro ⟨hok, u, hu, t, ht, hlast⟩
        exact ⟨t, ⟨hok, u, hu, ht⟩, hlast⟩
      · rintro ⟨t, ⟨hok, u, hu, ht⟩, hlast⟩
        exact ⟨hok, u, hu, t, ht, hlast⟩

/-- A condition that the steps of every run meet may be replaced by one that follows from it. -/
theorem exec_mono {step : σ → α → Option σ} {ok ok' : σ → α → Bool} {as : List α} {s₀ s : σ}
    (hok : ∀ s a s', Reach step (fun s a => ok s a = true) s₀ s → ok s a = true →
      step s a = some s' → ok' s a = true)
    (h : exec step ok s₀ as = some s) : exec step ok' s₀ as = some s := by
  induction as using List.reverseRecOn generalizing s with
  | nil => exact h
  | append_singleton as a ih =>
    obtain ⟨t, ht, hlast, hs⟩ := exec_concat.mp h
    exact exec_concat.mpr ⟨t, ih ht, hok t a s (exec_reach ht) hlast hs, hs⟩

/-- Where each step keeps `I` exactly when it meets `cond`, a run keeps `I` exactly when all its steps
    do. -/
theorem exec_iff {step : σ → α → Option σ} {ok cond : σ → α → Bool} {as : List α} {s₀ s : σ}
    {I : σ → Prop} (init : I s₀)
    (hstep : ∀ s a s', Reach step (fun s a => ok s a = true) s₀ s → ok s a = true →
      step s a = some s' → (I s' ↔ I s ∧ cond s a = true))
    (h : exec step ok s₀ as = some s) :
    I s ↔ exec step (fun s a => ok s a && cond s a) s₀ as = some s := by
  induction as using List.reverseRecOn generalizing s with
  | nil =>
    rw [exec, Option.some.injEq] at h
    subst h
    exact ⟨fun _ => rfl, fun _ => init⟩
  | append_singleton as a ih =>
    obtain ⟨t, ht, hok, hs⟩ := exec_concat.mp h
    rw [hstep t a s (exec_reach ht) hok hs, ih ht, exec_concat]
    constructor
    · rintro ⟨hrun, hcond⟩
      exact ⟨t, hrun, by rw [hok, hcond]; rfl, hs⟩
    · rintro ⟨u, hu, hlast, -⟩
      have hweak : exec step ok s₀ as = some u :=
        exec_mono (fun s a s' _ hboth _ => (Bool.and_eq_true_iff.mp hboth).1) hu
      obtain rfl : u = t := Option.some.inj (hweak.symm.trans ht)
      exact ⟨hu, (Bool.and_eq_true_iff.mp hlast).2⟩

/-! ### Logs -/

/-- The machine that writes down what `emit` says of each step: of the state before, the action and
    the state after. -/
def logged {ω : Type*} (step : σ → α → Option σ) (emit : σ → α → σ → List ω) (s : σ × List ω) (a : α) :
    Option (σ × List ω) := (step s.1 a).map fun s' => (s', s.2 ++ emit s.1 a s')

/-- The states reached from `s₀`, each with the log of its run. -/
def LogReach {ω : Type*} (step : σ → α → Option σ) (emit : σ → α → σ → List ω) (ok : σ → α → Prop)
    (s₀ : σ) (s : σ × List ω) : Prop := Reach (logged step emit) (fun t a => ok t.1 a) (s₀, []) s

namespace LogReach

variable {ω : Type*} {step : σ → α → Option σ} {emit : σ → α → σ → List ω} {ok : σ → α → Prop} {s₀ : σ}
  {s : σ × List ω}

/-- Without the log it is a run. -/
theorem reach (h : LogReach step emit ok s₀ s) : Reach step ok s₀ s.1 := by
  induction h with
  | refl => exact .refl
  | tail hr hok hs ih =>
    obtain ⟨s', hs', rfl⟩ := Option.map_eq_some_iff.mp hs
    exact .tail ih hok hs'

/-- An invariant of states and logs. -/
theorem invariant {I : σ → List ω → Prop} (h0 : I s₀ [])
    (hstep : ∀ s log a s', LogReach step emit ok s₀ (s, log) → I s log → ok s a →
      step s a = some s' → I s' (log ++ emit s a s'))
    (h : LogReach step emit ok s₀ s) : I s.1 s.2 := by
  refine Reach.invariant (I := fun t => I t.1 t.2) h0 ?_ h
  rintro ⟨s, log⟩ a t hr hI hok hs
  obtain ⟨s', hs', rfl⟩ := Option.map_eq_some_iff.mp hs
  exact hstep s log a s' hr hI hok hs'

end LogReach

/-- A played list of actions and a check of the state it ends in and of its log. -/
theorem exec_log_check {ω : Type*} (step : σ → α → Option σ) (emit : σ → α → σ → List ω)
    (ok : σ → α → Bool) (s : σ) (as : List α) (check : σ → List ω → Bool)
    (h : (exec (logged step emit) (fun t a => ok t.1 a) (s, []) as).map (fun t => check t.1 t.2) =
      some true) :
    ∃ s' log, LogReach step emit (fun s a => ok s a = true) s (s', log) ∧ check s' log = true := by
  obtain ⟨⟨s', log⟩, hs, hc⟩ := exec_check h
  exact ⟨s', log, hs, hc⟩

end Lib
