import WsServer.Lib.Threads

/-! Two runs in lockstep. A relation between states that every step keeps, enabled or blocked on both
    sides, is kept by every list of actions. Pools that differ in one thread stay so when the steps of
    that thread agree on the shared state. -/

namespace Lib

section
variable {σ τ α : Type*} {R : σ → τ → Prop}

variable {step : σ → α → Option σ} {step' : τ → α → Option τ} {ok : σ → α → Bool} {ok' : τ → α → Bool}

/-- Runs may start with different actions, when the states after them are related and go on alike. -/
theorem exec_cons_lockstep {a b : α} {as bs : List α} {s : σ} {t : τ} (hok : ok s a = ok' t b)
    (hfirst : Option.Rel R (step s a) (step' t b))
    (hrest : ∀ s' t', R s' t' → Option.Rel R (exec step ok s' as) (exec step' ok' t' bs)) :
    Option.Rel R (exec step ok s (a :: as)) (exec step' ok' t (b :: bs)) := by
  rw [exec, exec, hok]
  split
  · rcases hs : step s a with _ | s' <;> rcases ht : step' t b with _ | t' <;>
      rw [hs, ht] at hfirst <;> cases hfirst
    · exact .none
    · rename_i hst
      exact hrest s' t' hst
  · exact .none

/-- A list of actions keeps what each of its steps keeps. -/
theorem exec_lockstep (hok : ∀ s t a, R s t → ok s a = ok' t a)
    (hstep : ∀ s t a, R s t → Option.Rel R (step s a) (step' t a)) :
    ∀ {as : List α} {s : σ} {t : τ}, R s t → Option.Rel R (exec step ok s as) (exec step' ok' t as)
  | [], _, _, h => .some h
  | a :: _, s, t, h => exec_cons_lockstep (hok s t a h) (hstep s t a h) fun _ _ hst =>
      exec_lockstep hok hstep hst

end

section
variable {S L N A E : Type*} {R : L → L → Prop} {P : Prog S L N A E} {p q : Pool S L} {i : ℕ}

/-- Equal, or equal up to thread `i`, whose two states are related. -/
def Pool.AlikeAt (R : L → L → Prop) (i : ℕ) (p q : Pool S L) : Prop :=
  p = q ∨ ∃ l m, p.threads[i]? = some l ∧ R l m ∧ q = ⟨p.shared, p.threads.set i m⟩

/-- The outcomes of two steps of one thread. -/
def Outcome (R : L → L → Prop) (r t : S × L) : Prop := r.1 = t.1 ∧ R r.2 t.2

/-- From equal pools thread `i` steps on each side, perhaps by different actions. -/
theorem Prog.run_lockstep {a b : A} (hstep : ∀ l, p.threads[i]? = some l →
      Option.Rel (Outcome R) (P.step p.shared i l a) (P.step p.shared i l b)) :
    Option.Rel (Pool.AlikeAt R i) (P.next p (.run i a)) (P.next p (.run i b)) := by
  simp only [Prog.next]
  rcases hl : p.threads[i]? with _ | l
  · exact .none
  · have hout := hstep l hl
    simp only [Option.bind_some]
    rcases hr : P.step p.shared i l a with _ | r <;> rcases ht : P.step p.shared i l b with _ | t <;>
      rw [hr, ht] at hout <;> cases hout
    · exact .none
    · rename_i hrt
      obtain ⟨hshared, hthread⟩ := hrt
      refine .some (.inr ⟨r.2, t.2, List.getElem?_set_self (List.getElem?_eq_some_iff.mp hl).1,
        hthread, ?_⟩)
      simp only [List.set_set, hshared]

/-- Every action keeps the difference. -/
theorem Prog.next_lockstep
    (hstep : ∀ s l m a, R l m → Option.Rel (Outcome R) (P.step s i l a) (P.step s i m a))
    (h : p.AlikeAt R i q) (a : Act N A E) :
    Option.Rel (Pool.AlikeAt R i) (P.next p a) (P.next q a) := by
  rcases h with rfl | ⟨l, m, hl, hlm, rfl⟩
  · rcases P.next p a with _ | p'
    · exact .none
    · exact .some (.inl rfl)
  have hlt : i < p.threads.length := (List.getElem?_eq_some_iff.mp hl).1
  cases a with
  | spawn n =>
    refine .some (.inr ⟨l, m, ?_, hlm, ?_⟩)
    · rw [List.getElem?_append_left hlt]
      exact hl
    · rw [List.set_append_left _ _ hlt]
  | env e =>
    simp only [Prog.next]
    rcases P.env p.shared e with _ | s'
    · exact .none
    · exact .some (.inr ⟨l, m, hl, hlm, rfl⟩)
  | run j a =>
    by_cases hij : i = j
    · subst hij
      have hout := hstep p.shared l m a hlm
      simp only [Prog.next, hl, List.getElem?_set_self hlt, Option.bind_some]
      rcases hr : P.step p.shared i l a with _ | r <;> rcases ht : P.step p.shared i m a with _ | t <;>
        rw [hr, ht] at hout <;> cases hout
      · exact .none
      · rename_i hrt
        obtain ⟨hshared, hthread⟩ := hrt
        refine .some (.inr ⟨r.2, t.2, List.getElem?_set_self hlt, hthread, ?_⟩)
        simp only [List.set_set, hshared]
    · simp only [Prog.next, List.getElem?_set_ne hij]
      rcases p.threads[j]? with _ | k
      · exact .none
      simp only [Option.bind_some]
      rcases P.step p.shared j k a with _ | r
      · exact .none
      · refine .some (.inr ⟨l, m, ?_, hlm, ?_⟩)
        · rw [List.getElem?_set_ne (Ne.symm hij)]
          exact hl
        · simp only [List.set_comm _ _ hij]

end

end Lib
