import WsServer.Lib.Runs

/-! Refinement. `abs` reads a state of an abstract machine off each state of a concrete one, and what
    `emit` says of a concrete step is a path of the abstract machine. Then the log of every run is one
    (`LogReach.refines`), and what holds along abstract paths holds of the logs. -/

namespace Lib

variable {σ τ α β : Type*}

/-- The labels of a path, in order. -/
inductive Path (step : τ → β → τ → Prop) (t₀ : τ) : List β → τ → Prop
  | nil : Path step t₀ [] t₀
  | snoc {bs : List β} {b : β} {t t' : τ} : Path step t₀ bs t → step t b t' → Path step t₀ (bs ++ [b]) t'

namespace Path

variable {step : τ → β → τ → Prop} {t₀ t t' : τ} {bs bs' : List β} {b : β}

theorem single (h : step t b t') : Path step t [b] t' := .snoc .nil h

theorem append (h : Path step t₀ bs t) (h' : Path step t bs' t') : Path step t₀ (bs ++ bs') t' := by
  induction h' with
  | nil => rwa [List.append_nil]
  | snoc _ hs ih =>
    rw [← List.append_assoc]
    exact .snoc ih hs

/-- What holds at the start and is kept by every step holds at the end, of the labels so far. -/
theorem invariant {I : List β → τ → Prop} (h0 : I [] t₀)
    (hstep : ∀ bs b t t', I bs t → step t b t' → I (bs ++ [b]) t') (h : Path step t₀ bs t) : I bs t := by
  induction h with
  | nil => exact h0
  | snoc _ hs ih => exact hstep _ _ _ _ ih hs

end Path

/-- A machine whose steps are paths of another one refines it. -/
theorem LogReach.refines {next : σ → α → Option σ} {emit : σ → α → σ → List β} {ok : σ → α → Prop}
    {step : τ → β → τ → Prop} {s₀ : σ} {s : σ × List β} (abs : σ → τ)
    (hstep : ∀ s a s', Reach next ok s₀ s → ok s a → next s a = some s' →
      Path step (abs s) (emit s a s') (abs s'))
    (h : LogReach next emit ok s₀ s) : Path step (abs s₀) s.2 (abs s.1) := by
  refine h.invariant (I := fun s log => Path step (abs s₀) log (abs s)) .nil ?_
  intro s log a s' hr hpath hok hs
  exact hpath.append (hstep s a s' hr.reach hok hs)

end Lib
