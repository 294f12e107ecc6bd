import Mathlib.Algebra.BigOperators.Group.List.Basic
import WsServer.Lib.Runs

/-! Interleaved threads over a shared state. A `Prog` says how one thread steps, how a request
    starts one and what the environment does on its own; a `Pool` is the shared state with every
    thread ever started, in the order of their start. `Prog.next` interleaves them one atomic step at
    a time. Two rules cover every invariant of such a system: `rely_guarantee` for facts about the
    shared state and each thread on its own, `sum_rule` for sums over all threads. -/

namespace Lib

/-- A shared state and the threads running over it. A finished thread keeps its place. -/
structure Pool (S L : Type*) where
  shared : S
  threads : List L

/-- A multi-threaded program: `N` are requests, `A` thread actions, `E` environment events. -/
structure Prog (S L N A E : Type*) where
  start : N → L
  step : S → ℕ → L → A → Option (S × L)
  env : S → E → Option S

/-- One atomic step of the pool. -/
inductive Act (N A E : Type*) where
  | spawn (n : N)
  | run (i : ℕ) (a : A)
  | env (e : E)

variable {S L N A E : Type*}

/-- The interleaving semantics. -/
def Prog.next (P : Prog S L N A E) (p : Pool S L) : Act N A E → Option (Pool S L)
  | .spawn n => some { p with threads := p.threads ++ [P.start n] }
  | .run i a =>
    p.threads[i]?.bind fun l =>
      (P.step p.shared i l a).map fun r => { shared := r.1, threads := p.threads.set i r.2 }
  | .env e => (P.env p.shared e).map fun s' => { p with shared := s' }

/-- What a thread step does to the pool. -/
theorem Prog.next_run {P : Prog S L N A E} {p p' : Pool S L} {i : ℕ} {a : A}
    (h : P.next p (.run i a) = some p') : ∃ l s' l', p.threads[i]? = some l ∧
      P.step p.shared i l a = some (s', l') ∧ p' = ⟨s', p.threads.set i l'⟩ := by
  simp only [Prog.next, Option.bind_eq_some_iff, Option.map_eq_some_iff] at h
  obtain ⟨l, hl, ⟨s', l'⟩, hs, rfl⟩ := h
  exact ⟨l, s', l', hl, hs, rfl⟩

theorem Prog.next_env {P : Prog S L N A E} {p p' : Pool S L} {e : E}
    (h : P.next p (.env e) = some p') :
    ∃ s', P.env p.shared e = some s' ∧ p' = { p with shared := s' } := by
  simp only [Prog.next, Option.map_eq_some_iff] at h
  obtain ⟨s', hs, rfl⟩ := h
  exact ⟨s', hs, rfl⟩

/-- `J` holds of the number of threads and the shared state, `K` of every thread. -/
structure Holds (J : ℕ → S → Prop) (K : S → ℕ → L → Prop) (p : Pool S L) : Prop where
  shared : J p.threads.length p.shared
  each : ∀ i l, p.threads[i]? = some l → K p.shared i l

/-- Thread lookups after thread `i` moved to `l'`. -/
theorem getElem?_set_cases {ts : List L} {i j : ℕ} {l l' m : L} (hl : ts[i]? = some l)
    (h : (ts.set i l')[j]? = some m) : (j = i ∧ m = l') ∨ (j ≠ i ∧ ts[j]? = some m) := by
  rw [List.getElem?_set] at h
  by_cases hij : i = j
  · have hlt : i < ts.length := (List.getElem?_eq_some_iff.mp hl).1
    subst hij
    rw [if_pos rfl, if_pos hlt] at h
    exact Or.inl ⟨rfl, (Option.some.inj h).symm⟩
  · rw [if_neg hij] at h
    exact Or.inr ⟨fun e => hij e.symm, h⟩

/-- Thread lookups after a thread was started. -/
theorem getElem?_concat_cases {ts : List L} {l m : L} {j : ℕ}
    (h : (ts ++ [l])[j]? = some m) : ts[j]? = some m ∨ (j = ts.length ∧ m = l) := by
  rw [List.getElem?_append] at h
  split at h
  · exact Or.inl h
  · rw [List.getElem?_singleton] at h
    split at h
    · exact Or.inr ⟨by omega, (Option.some.inj h).symm⟩
    · cases h

/-- The rely-guarantee rule: a thread's step keeps `J` and its own `K` (`own`) and leaves the `K` of
    every other thread intact (`other`). Each obligation may use the whole invariant before it. -/
theorem Prog.rely_guarantee_spawn {P : Prog S L N A E} {ok : Pool S L → Act N A E → Prop}
    {J : ℕ → S → Prop} {K : S → ℕ → L → Prop} {p₀ p : Pool S L} (init : Holds J K p₀)
    (start : ∀ p n, Reach P.next ok p₀ p → Holds J K p → ok p (.spawn n) →
      J (p.threads.length + 1) p.shared ∧ K p.shared p.threads.length (P.start n))
    (own : ∀ p i l a s' l', Reach P.next ok p₀ p → Holds J K p → ok p (.run i a) →
      p.threads[i]? = some l → P.step p.shared i l a = some (s', l') →
      J p.threads.length s' ∧ K s' i l')
    (other : ∀ p i l a s' l' j m, Reach P.next ok p₀ p → Holds J K p → ok p (.run i a) → j ≠ i →
      p.threads[i]? = some l → p.threads[j]? = some m → P.step p.shared i l a = some (s', l') →
      K s' j m)
    (env : ∀ p e s', Holds J K p → P.env p.shared e = some s' →
      J p.threads.length s' ∧ ∀ j m, p.threads[j]? = some m → K s' j m)
    (h : Reach P.next ok p₀ p) : Holds J K p := by
  refine h.invariant init ?_
  intro p a p' hr hI hok hs
  cases a with
  | spawn n =>
    rw [Prog.next, Option.some.injEq] at hs
    subst hs
    obtain ⟨hJ, hK⟩ := start p n hr hI hok
    refine ⟨by simpa using hJ, ?_⟩
    intro j m hj
    rcases getElem?_concat_cases hj with hj | ⟨rfl, rfl⟩
    · exact hI.each j m hj
    · exact hK
  | run i a =>
    obtain ⟨l, s', l', hl, hstep, rfl⟩ := Prog.next_run hs
    obtain ⟨hJ, hK⟩ := own p i l a s' l' hr hI hok hl hstep
    refine ⟨by simpa using hJ, ?_⟩
    intro j m hj
    rcases getElem?_set_cases hl hj with ⟨rfl, rfl⟩ | ⟨hne, hj⟩
    · exact hK
    · exact other p i l a s' l' j m hr hI hok hne hl hj hstep
  | env e =>
    obtain ⟨s', hstep, rfl⟩ := Prog.next_env hs
    obtain ⟨hJ, hK⟩ := env p e s' hI hstep
    exact ⟨hJ, hK⟩

/-- The rely-guarantee rule where any request may start a thread. -/
theorem Prog.rely_guarantee {P : Prog S L N A E} {ok : Pool S L → Act N A E → Prop}
    {J : ℕ → S → Prop} {K : S → ℕ → L → Prop} {p₀ p : Pool S L} (init : Holds J K p₀)
    (start : ∀ p n, Reach P.next ok p₀ p → Holds J K p →
      J (p.threads.length + 1) p.shared ∧ K p.shared p.threads.length (P.start n))
    (own : ∀ p i l a s' l', Reach P.next ok p₀ p → Holds J K p → ok p (.run i a) →
      p.threads[i]? = some l → P.step p.shared i l a = some (s', l') →
      J p.threads.length s' ∧ K s' i l')
    (other : ∀ p i l a s' l' j m, Reach P.next ok p₀ p → Holds J K p → ok p (.run i a) → j ≠ i →
      p.threads[i]? = some l → p.threads[j]? = some m → P.step p.shared i l a = some (s', l') →
      K s' j m)
    (env : ∀ p e s', Holds J K p → P.env p.shared e = some s' →
      J p.threads.length s' ∧ ∀ j m, p.threads[j]? = some m → K s' j m)
    (h : Reach P.next ok p₀ p) : Holds J K p :=
  Prog.rely_guarantee_spawn init (fun p n hr hI _ => start p n hr hI) own other env h

/-! ### Sums over all threads -/

/-- Replacing one entry of a sum: what is left beside it does not change. -/
theorem sum_map_set {M : Type*} [AddCommMonoid M] (f : L → M) : ∀ {ts : List L} {i : ℕ} {l : L},
    ts[i]? = some l → ∃ r, (ts.map f).sum = f l + r ∧
      ∀ l', ((ts.set i l').map f).sum = f l' + r
  | [], _, _, h => by simp at h
  | t :: ts, 0, l, h => by
      rw [List.getElem?_cons_zero, Option.some.injEq] at h
      subst h
      exact ⟨(ts.map f).sum, by simp, fun l' => by simp⟩
  | t :: ts, i + 1, l, h => by
      rw [List.getElem?_cons_succ] at h
      obtain ⟨r, h1, h2⟩ := sum_map_set f h
      refine ⟨f t + r, ?_, fun l' => ?_⟩
      · rw [List.map_cons, List.sum_cons, h1, add_left_comm]
      · rw [List.set_cons_succ, List.map_cons, List.sum_cons, h2, add_left_comm]

/-- The sum rule: `R` relates the shared state to the sum of the threads' accounts `f`. A step sees its
    own account and the rest `r` of the sum, which it leaves alone. -/
theorem Prog.sum_rule {M : Type*} [AddCommMonoid M] {P : Prog S L N A E}
    {ok : Pool S L → Act N A E → Prop} {R : S → M → Prop} {f : L → M} {p₀ p : Pool S L}
    (init : R p₀.shared (p₀.threads.map f).sum) (start : ∀ n, f (P.start n) = 0)
    (step : ∀ p i l a s' l' r, Reach P.next ok p₀ p → ok p (.run i a) → p.threads[i]? = some l →
      P.step p.shared i l a = some (s', l') → ((p.threads.set i l').map f).sum = f l' + r →
      R p.shared (f l + r) → R s' (f l' + r))
    (env : ∀ s e s' m, R s m → P.env s e = some s' → R s' m)
    (h : Reach P.next ok p₀ p) : R p.shared (p.threads.map f).sum := by
  refine h.invariant (I := fun p => R p.shared (p.threads.map f).sum) init ?_
  intro p a p' hr hI hok hs
  cases a with
  | spawn n =>
    rw [Prog.next, Option.some.injEq] at hs
    subst hs
    simpa [start n] using hI
  | run i a =>
    obtain ⟨l, s', l', hl, hstep, rfl⟩ := Prog.next_run hs
    obtain ⟨r, h1, h2⟩ := sum_map_set f hl
    rw [h1] at hI
    have hR := step p i l a s' l' r hr hok hl hstep (h2 l') hI
    rw [← h2 l'] at hR
    exact hR
  | env e =>
    obtain ⟨s', hstep, rfl⟩ := Prog.next_env hs
    exact env _ _ _ _ hI hstep

end Lib
