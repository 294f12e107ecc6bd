import WsServer.Lib.Threads

/-! Journals. Each step of a thread may write entries of its own; the journal of a run has them all, with
    the thread that wrote them. `journal_rule` is the rule for facts about one thread and its own
    entries, whatever the other threads write between them. -/

namespace Lib

variable {S L N A E ω : Type*} {P : Prog S L N A E}

/-- The entries of a step: `tell` says what a thread writes when it steps from one local state to the next. -/
def journal (tell : S → ℕ → L → A → L → List ω) (p : Pool S L) (a : Act N A E) (p' : Pool S L) :
    List (ℕ × ω) :=
  match a with
  | .run i a =>
    match p.threads[i]?, p'.threads[i]? with
    | some l, some l' => (tell p.shared i l a l').map fun e => (i, e)
    | _, _ => []
  | _ => []

/-- What thread `i` wrote, in order. -/
def entriesOf (log : List (ℕ × ω)) (i : ℕ) : List ω := (log.filter fun e => e.1 = i).map Prod.snd

theorem entriesOf_append (log log' : List (ℕ × ω)) (i : ℕ) :
    entriesOf (log ++ log') i = entriesOf log i ++ entriesOf log' i := by
  rw [entriesOf, List.filter_append, List.map_append]
  rfl

theorem entriesOf_own (es : List ω) (i : ℕ) : entriesOf (es.map fun e => (i, e)) i = es := by
  simp [entriesOf, List.filter_map, Function.comp_def]

theorem entriesOf_other (es : List ω) {i j : ℕ} (h : j ≠ i) :
    entriesOf (es.map fun e => (i, e)) j = [] := by
  have hne : ¬ i = j := fun e => h e.symm
  simp [entriesOf, List.filter_map, Function.comp_def, hne]

theorem journal_run {tell : S → ℕ → L → A → L → List ω} {p : Pool S L} {i : ℕ} {a : A} {l l' : L} {s' : S}
    (h : p.threads[i]? = some l) :
    journal (N := N) (E := E) tell p (.run i a) ⟨s', p.threads.set i l'⟩ =
      (tell p.shared i l a l').map fun e => (i, e) := by
  have hlt := (List.getElem?_eq_some_iff.mp h).1
  simp only [journal, h, List.getElem?_set_self hlt]

/-- Only threads that were started write. -/
structure Journaled (K : S → ℕ → L → List ω → Prop) (p : Pool S L) (log : List (ℕ × ω)) : Prop where
  each : ∀ i l, p.threads[i]? = some l → K p.shared i l (entriesOf log i)
  started : ∀ i, p.threads.length ≤ i → entriesOf log i = []

/-- The rule of the journal: a thread that starts has written nothing, its own step adds what it tells,
    and the steps of the others keep what is known of it. -/
theorem Prog.journal_rule {ok : Pool S L → Act N A E → Prop} {tell : S → ℕ → L → A → L → List ω}
    {K : S → ℕ → L → List ω → Prop} {p₀ : Pool S L} {s : Pool S L × List (ℕ × ω)}
    (init : p₀.threads = [])
    (start : ∀ p n, Reach P.next ok p₀ p → K p.shared p.threads.length (P.start n) [])
    (own : ∀ p i l a s' l' es, Reach P.next ok p₀ p → ok p (.run i a) → p.threads[i]? = some l →
      P.step p.shared i l a = some (s', l') → K p.shared i l es →
      K s' i l' (es ++ tell p.shared i l a l'))
    (other : ∀ p i l a s' l' j m es, Reach P.next ok p₀ p → ok p (.run i a) → j ≠ i →
      p.threads[i]? = some l → p.threads[j]? = some m → P.step p.shared i l a = some (s', l') →
      K p.shared j m es → K s' j m es)
    (env : ∀ s e s' j m es, P.env s e = some s' → K s j m es → K s' j m es)
    (h : LogReach P.next (journal tell) ok p₀ s) : Journaled K s.1 s.2 := by
  refine h.invariant (I := Journaled K) ⟨?_, fun i _ => rfl⟩ ?_
  · intro i l hl
    rw [init] at hl
    cases hl
  · intro p log a p' hr hI hok hs
    have hreach := hr.reach
    cases a with
    | spawn n =>
      rw [Prog.next, Option.some.injEq] at hs
      subst hs
      rw [show journal tell p (.spawn n) _ = [] from rfl, List.append_nil]
      refine ⟨?_, ?_⟩
      · -- each
        intro i l hl
        rcases getElem?_concat_cases hl with hl | ⟨rfl, rfl⟩
        · exact hI.each i l hl
        · rw [hI.started _ (Nat.le_refl _)]
          exact start p n hreach
      · -- started
        intro i hi
        rw [List.length_append] at hi
        exact hI.started i (by omega)
    | env e =>
      obtain ⟨s', he, rfl⟩ := Prog.next_env hs
      rw [show journal tell p (.env e) _ = [] from rfl, List.append_nil]
      exact ⟨fun i l hl => env _ e s' i l _ he (hI.each i l hl), hI.started⟩
    | run i a =>
      obtain ⟨l, s', l', hl, hstep, rfl⟩ := Prog.next_run hs
      rw [journal_run hl]
      refine ⟨?_, ?_⟩
      · -- each
        intro j m hj
        rw [entriesOf_append]
        rcases getElem?_set_cases hl hj with ⟨rfl, rfl⟩ | ⟨hne, hj⟩
        · rw [entriesOf_own]
          exact own p j l a s' m _ hreach hok hl hstep (hI.each j l hl)
        · rw [entriesOf_other _ hne, List.append_nil]
          exact other p i l a s' l' j m _ hreach hok hne hl hj hstep (hI.each j m hj)
      · -- started
        intro j hj
        rw [List.length_set] at hj
        have hlt := (List.getElem?_eq_some_iff.mp hl).1
        rw [entriesOf_append, entriesOf_other _ (by omega), List.append_nil]
        exact hI.started j hj

end Lib
