import Mathlib.Data.List.Basic

/-! Users of a shared deterministic object. `trace` runs a list of calls and gives their results in order.
    When each user's calls read and write only that user's view of the state, deleting the calls of all
    others changes no result: `trace_filter`. -/

namespace Lib

variable {σ κ ρ υ V : Type*}

/-- The results of the calls, each beside its call; `none` when one of them is not possible. -/
def trace (step : σ → κ → Option (ρ × σ)) : σ → List κ → Option (List (κ × ρ) × σ)
  | s, [] => some ([], s)
  | s, k :: ks =>
    (step s k).bind fun r => (trace step r.2 ks).map fun t => ((k, r.1) :: t.1, t.2)

/-- A call of one user leaves the views of the others, and its outcome depends on his own view. -/
structure PerUser (step : σ → κ → Option (ρ × σ)) (user : κ → υ) (view : υ → σ → V) : Prop where
  other : ∀ s k r s' u, step s k = some (r, s') → user k ≠ u → view u s' = view u s
  own : ∀ s t k r s', view (user k) s = view (user k) t → step s k = some (r, s') →
    ∃ t', step t k = some (r, t') ∧ view (user k) s' = view (user k) t'

theorem trace_cons {step : σ → κ → Option (ρ × σ)} {s s' : σ} {k : κ} {ks : List κ}
    {rs : List (κ × ρ)} (h : trace step s (k :: ks) = some (rs, s')) :
    ∃ r t rs', step s k = some (r, t) ∧ trace step t ks = some (rs', s') ∧ rs = (k, r) :: rs' := by
  simp only [trace, Option.bind_eq_some_iff, Option.map_eq_some_iff, Prod.mk.injEq] at h
  obtain ⟨⟨r, t⟩, hk, ⟨rs', s''⟩, hks, rfl, rfl⟩ := h
  exact ⟨r, t, rs', hk, hks, rfl⟩

theorem trace_step {step : σ → κ → Option (ρ × σ)} {s t s' : σ} {k : κ} {r : ρ} {ks : List κ}
    {rs : List (κ × ρ)} (hk : step s k = some (r, t)) (hks : trace step t ks = some (rs, s')) :
    trace step s (k :: ks) = some ((k, r) :: rs, s') := by
  rw [trace, hk, Option.bind_some, hks]
  rfl

theorem trace_append {step : σ → κ → Option (ρ × σ)} : ∀ {ks ks' : List κ} {s t u : σ}
    {rs rs' : List (κ × ρ)}, trace step s ks = some (rs, t) → trace step t ks' = some (rs', u) →
      trace step s (ks ++ ks') = some (rs ++ rs', u)
  | [], ks', s, t, u, rs, rs', h, h' => by
      simp only [trace, Option.some.injEq, Prod.mk.injEq] at h
      obtain ⟨rfl, rfl⟩ := h
      exact h'
  | k :: ks, ks', s, t, u, rs, rs', h, h' => by
      obtain ⟨r, s₁, rs₁, hk, hks, rfl⟩ := trace_cons h
      exact trace_step hk (trace_append hks h')

/-- The results of a run that continues another one. -/
theorem trace_rest {step : σ → κ → Option (ρ × σ)} {ks ks' : List κ} {s t u : σ}
    {rs rs' : List (κ × ρ)} (h : trace step s ks = some (rs, t))
    (h' : trace step s (ks ++ ks') = some (rs ++ rs', u)) : trace step t ks' = some (rs', u) := by
  induction ks generalizing s rs with
  | nil =>
    simp only [trace, Option.some.injEq, Prod.mk.injEq] at h
    obtain ⟨rfl, rfl⟩ := h
    exact h'
  | cons k ks ih =>
    obtain ⟨r, s₁, rs₁, hk, hks, rfl⟩ := trace_cons h
    obtain ⟨r', s₁', rs₁', hk', hks', heq⟩ := trace_cons h'
    rw [hk, Option.some.injEq, Prod.mk.injEq] at hk'
    obtain ⟨rfl, rfl⟩ := hk'
    rw [List.cons_append, List.cons.injEq] at heq
    exact ih hks (heq.2 ▸ hks')

/-- An invariant of the calls holds after all of them. -/
theorem trace_invariant {step : σ → κ → Option (ρ × σ)} {I : σ → Prop}
    (hstep : ∀ s k r s', I s → step s k = some (r, s') → I s') :
    ∀ {ks : List κ} {s s' : σ} {rs : List (κ × ρ)}, trace step s ks = some (rs, s') → I s → I s'
  | [], s, s', rs, h, hI => by
      simp only [trace, Option.some.injEq, Prod.mk.injEq] at h
      rw [← h.2]
      exact hI
  | k :: ks, s, s', rs, h, hI => by
      obtain ⟨r, t, rs', hk, hks, -⟩ := trace_cons h
      exact trace_invariant hstep hks (hstep s k r t hI hk)

/-- Deleting the calls of all other users leaves the results of the rest. -/
theorem trace_filter [DecidableEq υ] {step : σ → κ → Option (ρ × σ)} {user : κ → υ}
    {view : υ → σ → V} (h : PerUser step user view) (u : υ) :
    ∀ {ks : List κ} {s t s' : σ} {rs : List (κ × ρ)}, view u s = view u t →
      trace step s ks = some (rs, s') →
      ∃ t', trace step t (ks.filter fun k => user k = u) =
        some (rs.filter (fun r => user r.1 = u), t') ∧ view u s' = view u t'
  | [], s, t, s', rs, hview, hrun => by
      simp only [trace, Option.some.injEq, Prod.mk.injEq] at hrun
      obtain ⟨rfl, rfl⟩ := hrun
      exact ⟨t, rfl, hview⟩
  | k :: ks, s, t, s', rs, hview, hrun => by
      obtain ⟨r, s₁, rs', hk, hks, rfl⟩ := trace_cons hrun
      by_cases hu : user k = u
      · subst hu
        obtain ⟨t₁, ht, hview₁⟩ := h.own s t k r s₁ hview hk
        obtain ⟨t', htrace, hview'⟩ := trace_filter h (user k) hview₁ hks
        refine ⟨t', ?_, hview'⟩
        rw [List.filter_cons_of_pos (by simp), List.filter_cons_of_pos (by simp)]
        exact trace_step ht htrace
      · obtain ⟨t', htrace, hview'⟩ :=
          trace_filter h u ((h.other s k r s₁ u hk hu).trans hview) hks
        refine ⟨t', ?_, hview'⟩
        rw [List.filter_cons_of_neg (by simpa using hu), List.filter_cons_of_neg (by simpa using hu)]
        exact htrace

end Lib
