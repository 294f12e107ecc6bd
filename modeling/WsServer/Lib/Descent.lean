import Mathlib.Algebra.GroupWithZero.Nat
import WsServer.Lib.Threads

/-! Runs that come to an end. Where every thread that is not finished can take a step that leaves it less
    to do, whatever the others are at, one thread can be finished without the others taking a step, and
    all of them can be finished; neither takes more steps than there is to do. -/

namespace Lib

variable {S L N A E : Type*} {P : Prog S L N A E} {I : Pool S L → Prop} {left : L → ℕ} {good : A → Bool}

/-- The actions of threads that are `good`. -/
def onlyRuns (good : A → Bool) (_ : Pool S L) : Act N A E → Bool
  | .run _ a => good a
  | _ => false

/-- A thread that is not finished has a good step that leaves it less to do, and `I` is kept. -/
structure Prog.Descends (P : Prog S L N A E) (I : Pool S L → Prop) (left : L → ℕ) (good : A → Bool) :
    Prop where
  step : ∀ p i l, I p → p.threads[i]? = some l → left l ≠ 0 → ∃ a s' l', good a = true ∧
    P.step p.shared i l a = some (s', l') ∧ left l' < left l
  keep : ∀ p i a p', I p → P.next p (.run i a) = some p' → I p'

/-- A thread finishes by its own steps. -/
theorem Prog.Descends.finish (h : P.Descends I left good) (i : ℕ) {n : ℕ} {p : Pool S L} {l : L}
    (hn : left l ≤ n) (hI : I p) (hl : p.threads[i]? = some l) :
    ∃ (as : List A) (s' : S) (l' : L), as.length ≤ n ∧
      exec P.next (onlyRuns good) p (as.map (.run i)) = some ⟨s', p.threads.set i l'⟩ ∧
      I ⟨s', p.threads.set i l'⟩ ∧ left l' = 0 := by
  obtain ⟨hlt, hget⟩ := List.getElem?_eq_some_iff.mp hl
  induction n generalizing p l with
  | zero =>
    have hset : p.threads.set i l = p.threads := by rw [← hget, List.set_getElem_self hlt]
    exact ⟨[], p.shared, l, Nat.le_refl 0, by rw [hset]; rfl, by rwa [hset], by omega⟩
  | succ n ih =>
    by_cases h0 : left l = 0
    · obtain ⟨as, s', l', hlen, hexec, hI', h0'⟩ := ih (by omega) hI hl hlt hget
      exact ⟨as, s', l', by omega, hexec, hI', h0'⟩
    · obtain ⟨a, s', l', hgood, hstep, hless⟩ := h.step p i l hI hl h0
      have hnext : P.next p (.run i a) = some ⟨s', p.threads.set i l'⟩ := by
        simp [Prog.next, hl, hstep]
      have hlt' : i < (p.threads.set i l').length := by rwa [List.length_set]
      have hget' : (p.threads.set i l')[i] = l' := List.getElem_set_self hlt'
      obtain ⟨as, t, m, hlen, hexec, hI', h0'⟩ := @ih ⟨s', p.threads.set i l'⟩ l' (by omega)
        (h.keep p i a _ hI hnext) (List.getElem?_set_self hlt) hlt' hget'
      rw [List.set_set] at hexec hI'
      refine ⟨a :: as, t, m, by rw [List.length_cons]; omega, ?_, hI', h0'⟩
      simp only [List.map_cons, exec, onlyRuns, hgood, if_true, hnext, Option.bind_some]
      exact hexec

/-- All threads finish. -/
theorem Prog.Descends.drain (h : P.Descends I left good) {n : ℕ} {p : Pool S L}
    (hn : (p.threads.map left).sum ≤ n) (hI : I p) :
    ∃ (as : List (Act N A E)) (p' : Pool S L), as.length ≤ n ∧
      exec P.next (onlyRuns good) p as = some p' ∧ I p' ∧ ∀ l ∈ p'.threads, left l = 0 := by
  induction n generalizing p with
  | zero =>
    refine ⟨[], p, Nat.le_refl 0, rfl, hI, ?_⟩
    intro l hl
    obtain ⟨i, hi⟩ := List.mem_iff_getElem?.mp hl
    obtain ⟨r, hsum, -⟩ := sum_map_set left hi
    omega
  | succ n ih =>
    by_cases hall : ∀ l ∈ p.threads, left l = 0
    · exact ⟨[], p, Nat.zero_le _, rfl, hI, hall⟩
    · push Not at hall
      obtain ⟨l, hmem, h0⟩ := hall
      obtain ⟨i, hl⟩ := List.mem_iff_getElem?.mp hmem
      obtain ⟨a, s', l', hgood, hstep, hless⟩ := h.step p i l hI hl h0
      have hnext : P.next p (.run i a) = some ⟨s', p.threads.set i l'⟩ := by
        simp [Prog.next, hl, hstep]
      obtain ⟨r, hbefore, hafter⟩ := sum_map_set left hl
      obtain ⟨as, p', hlen, hexec, hI', hdone⟩ := @ih ⟨s', p.threads.set i l'⟩
        (by rw [hafter]; omega) (h.keep p i a _ hI hnext)
      refine ⟨.run i a :: as, p', by rw [List.length_cons]; omega, ?_, hI', hdone⟩
      simp only [exec, onlyRuns, hgood, if_true, hnext, Option.bind_some]
      exact hexec

end Lib
