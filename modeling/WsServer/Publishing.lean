import WsServer.Gate
import WsServer.Gauge
import WsServer.Lib.Journal
import WsServer.Ordering
import WsServer.Senders

/-! From a frame or a call to `publish`. Once an event to publish passed the checks and was encoded, its
    task carries it through the two steps of `publish` and nothing gets in between: the supervisor aborts
    a reader only between frames. So what was accepted of a task is published in the same order, each
    exactly once, apart from the one the task has in hand; and a call has published once if its answer
    says so, and not otherwise. -/

namespace WsServer

open Lib

variable {E : Ext} {w : World E} {i : ℕ} {c : Session E} {r : World E × Session E} {config : Config}
  {p : ServerState E}

/-! ### The publication in hand -/

/-- Key and bytes that the reader is to publish. -/
def ReaderPc.order : ReaderPc E → Option (String × E.Bytes)
  | .publishing topicKey encoded | .sending topicKey _ encoded => some (topicKey, encoded)
  | _ => none

def CallPc.order : CallPc E → Option (String × E.Bytes)
  | .publishing topicKey encoded | .sending topicKey _ encoded => some (topicKey, encoded)
  | _ => none

/-- The publication that a task has in hand. -/
def Task.order (i : ℕ) : Task E → Option (Publish E)
  | .ws c => c.reader.order.map fun o => ⟨o.1, c.identity, .ws i c.frames, o.2⟩
  | .http d => d.pc.order.map fun o => ⟨o.1, d.identity, .http i, o.2⟩

/-- The publications of task `i`. -/
def ofTask (i : ℕ) (l : List (Publish E)) : List (Publish E) := l.filter fun q => q.origin.task = i

theorem ofTask_append (i : ℕ) (l l' : List (Publish E)) :
    ofTask i (l ++ l') = ofTask i l ++ ofTask i l' := List.filter_append l l'

theorem order_origin {l : Task E} {q : Publish E} (h : l.order i = some q) : q.origin.task = i := by
  cases l with
  | ws c =>
    obtain ⟨o, -, rfl⟩ := Option.map_eq_some_iff.mp h
    rfl
  | http d =>
    obtain ⟨o, -, rfl⟩ := Option.map_eq_some_iff.mp h
    rfl

/-- What a step accepts: the event that a reader takes past the last check, or that a call resolves to. -/
def Task.accepts (_ : World E) (i : ℕ) (_ : Task E) (a : TaskAct) (l' : Task E) : List (Publish E) :=
  match a with
  | .reader .tenantRate | .call .resolve => (l'.order i).toList
  | _ => []

/-! ### What a step does to it -/

/-- A step accepts a publication, publishes the one in hand, or leaves it in hand. -/
inductive Conveys (w w' : World E) (i : ℕ) (l : Task E) (a : TaskAct) (l' : Task E) : Prop
  | accepted (before : l.order i = none) (log : l.accepts w i a l' = (l'.order i).toList)
      (same : w'.published = w.published)
  | carried (kept : l'.order i = l.order i) (log : l.accepts w i a l' = [])
      (same : w'.published = w.published)
  | sent (q : Publish E) (before : l.order i = some q) (after : l'.order i = none)
      (log : l.accepts w i a l' = []) (more : w'.published = w.published ++ [q])

theorem order_sendError (now : ℕ) (code message : String) :
    (c.sendError now code message).reader.order = none := by
  unfold Session.sendError
  split <;> rfl

theorem order_frame (f : Frame) : (Reader.frame w i c f).2.reader.order = none := by
  have hgate : ∀ tooLarge g, (Reader.gate w c tooLarge g).2.reader.order = none := by
    intro tooLarge g
    simp only [Reader.gate]
    split
    · rfl
    · split
      · exact order_sendError _ _ _
      · rfl
  cases f with
  | text t => exact hgate _ _
  | binary raw => exact hgate _ _
  | ping payload | pong | close | eof | failure => rfl

theorem topicSender_isSome (hroom : w.app.config.HasRoom E) (key : String) :
    ∃ ch w', w.topicSender key = some (ch, w') := by
  simp only [World.topicSender]
  split
  · exact ⟨_, _, rfl⟩
  · rw [hroom.2]
    exact ⟨_, _, rfl⟩

theorem published_topicSender {key : String} {ch : ℕ} {w' : World E}
    (h : w.topicSender key = some (ch, w')) : w'.published = w.published := by
  rcases wiring_topicSender h with ⟨-, he⟩ | ⟨-, -, cap, he⟩ <;> exact congrArg Wiring.published he

theorem published_publish (w : World E) (ch : ℕ) (q : Publish E) :
    (w.publish ch q).2.published = w.published ++ [q] :=
  congrArg Wiring.published (wiring_publish w ch q)

theorem order_of_publication {l : Task E} {ch : ℕ} {q : Publish E} (h : l.publication i = some (ch, q)) :
    l.order i = some q := by
  cases l with
  | ws c =>
    simp only [Task.publication] at h
    split at h <;> cases h
    rename_i hr
    rw [Task.order, hr]
    rfl
  | http d =>
    simp only [Task.publication] at h
    split at h <;> cases h
    rename_i hp
    rw [Task.order, hp]
    rfl

/-- A task with nothing to publish publishes nothing. -/
theorem published_idle {l l' : Task E} {a : TaskAct} {w' : World E}
    (h : Task.step w i l a = some (w', l')) (hnone : l.order i = none) : w'.published = w.published := by
  rcases published_step h with hsame | ⟨ch, q, hq, -⟩
  · exact hsame
  · rw [order_of_publication hq] at hnone
    cases hnone

/-- What a reader does when it neither accepts nor publishes. -/
theorem order_rest {a : ReaderAct} (h : Reader.step w i c a = some r) (htenant : a ≠ .tenantRate)
    (hlocate : a ≠ .locate) (hsend : a ≠ .send) : c.reader.order = none ∧ r.2.reader.order = none := by
  cases a with
  | tenantRate => exact absurd rfl htenant
  | locate => exact absurd rfl hlocate
  | send => exact absurd rfl hsend
  | frame f =>
    simp only [Reader.step] at h
    split at h <;> cases h
    rename_i hr
    exact ⟨by rw [hr]; rfl, order_frame f⟩
  | direct =>
    simp only [Reader.step] at h
    split at h <;> cases h
    rename_i hr
    refine ⟨by rw [hr]; rfl, ?_⟩
    simp only [Reader.direct]
    split
    · exact order_sendError _ _ _
    · rfl
  | limitError =>
    simp only [Reader.step] at h
    split at h <;> cases h
    rename_i hr
    refine ⟨by rw [hr]; rfl, ?_⟩
    simp only [Reader.limitError]
    split <;> rfl
  | start | reply | limitClose =>
    simp only [Reader.step] at h
    split at h <;> cases h
    rename_i hr
    exact ⟨by rw [hr]; rfl, rfl⟩
  | idleTimeout =>
    simp only [Reader.step] at h
    split at h
    · rename_i hr
      split at h <;> cases h
      exact ⟨by rw [hr]; rfl, rfl⟩
    · cases h

theorem conveys_reader {a : ReaderAct} (hroom : w.app.config.HasRoom E)
    (h : Session.step w i c (.reader a) = some r) : Conveys w r.1 i (.ws c) (.reader a) (.ws r.2) := by
  have hstep : Task.step w i (.ws c) (.reader a) = some (r.1, .ws r.2) := by
    simp only [Task.step, h, Option.map_some]
  have hr : Reader.step w i c a = some r := h
  by_cases htenant : a = .tenantRate
  · subst htenant
    have hnone : (Task.ws c).order i = none := by
      simp only [Reader.step] at hr
      split at hr
      · rename_i f hchecking
        rw [Task.order, hchecking]
        rfl
      · cases hr
    exact .accepted hnone rfl (published_idle hstep hnone)
  · have hlog : (Task.ws c).accepts w i (.reader a) (.ws r.2) = [] := by
      cases a <;> first | rfl | exact absurd rfl htenant
    by_cases hlocate : a = .locate
    · subst hlocate
      simp only [Reader.step] at hr
      split at hr <;> cases hr
      rename_i topicKey encoded hpublishing
      obtain ⟨ch, w', hs⟩ := topicSender_isSome hroom topicKey
      simp only [Reader.locate, hs]
      refine .carried ?_ rfl (published_topicSender hs)
      rw [Task.order, Task.order, hpublishing]
      rfl
    · by_cases hsend : a = .send
      · subst hsend
        simp only [Reader.step] at hr
        split at hr <;> cases hr
        rename_i topicKey ch encoded hsending
        refine .sent ⟨topicKey, c.identity, .ws i c.frames, encoded⟩ ?_ rfl rfl ?_
        · rw [Task.order, hsending]
          rfl
        · simp only [Reader.send]
          split <;> exact published_publish w ch _
      · obtain ⟨hbefore, hafter⟩ := order_rest hr htenant hlocate hsend
        have hnone : (Task.ws c).order i = none := by rw [Task.order, hbefore]; rfl
        refine .carried ?_ hlog (published_idle hstep hnone)
        rw [hnone, Task.order, hafter]
        rfl

theorem order_of_resting {pc : ReaderPc E} (h : pc.isResting = true) : pc.order = none := by
  cases pc <;> first | rfl | cases h

/-- The other tasks of a connection leave its publication in hand. -/
theorem conveys_elsewhere {a : TaskAct} (hc : c.Shaped) (h : Session.step w i c a = some r)
    (ha : ∀ b, a ≠ .reader b) : Conveys w r.1 i (.ws c) a (.ws r.2) := by
  obtain ⟨hframes, hreader⟩ := reader_elsewhere hc h ha
  have hlog : (Task.ws c).accepts w i a (.ws r.2) = [] := by
    cases a with
    | reader b => exact absurd rfl (ha b)
    | call b => cases h
    | _ => rfl
  refine .carried ?_ hlog (session_frames h ha).2
  rcases hreader with hsame | ⟨hrest, hrest'⟩
  · by_cases hoff : c.reader = .off
    · rw [Task.order, Task.order, hsame, hoff]
      rfl
    · rw [Task.order, Task.order, hsame, hframes, identity_kept hc hoff h]
  · rw [Task.order, Task.order, order_of_resting hrest, order_of_resting hrest']
    rfl

theorem conveys_call {d : Call E} {a : CallAct} {s : World E × Call E} (hroom : w.app.config.HasRoom E)
    (h : Api.step w i d a = some s) : Conveys w s.1 i (.http d) (.call a) (.http s.2) := by
  cases a with
  | resolve =>
    simp only [Api.step] at h
    split at h <;> cases h
    rename_i hp
    refine .accepted ?_ rfl rfl
    rw [Task.order, hp]
    rfl
  | locate =>
    simp only [Api.step] at h
    split at h <;> cases h
    rename_i topicKey encoded hp
    obtain ⟨ch, w', hs⟩ := topicSender_isSome hroom topicKey
    simp only [Api.locate, hs]
    refine .carried ?_ rfl (published_topicSender hs)
    rw [Task.order, Task.order, hp]
    rfl
  | send =>
    simp only [Api.step] at h
    split at h <;> cases h
    rename_i topicKey ch encoded hp
    refine .sent ⟨topicKey, d.identity, .http i, encoded⟩ ?_ rfl rfl (published_publish w ch _)
    rw [Task.order, hp]
    rfl
  | direct =>
    have hstep : Task.step w i (.http d) (.call .direct) = some (s.1, .http s.2) := by
      simp only [Task.step, h, Option.map_some]
    simp only [Api.step] at h
    split at h <;> cases h
    rename_i target encoded hp
    have hnone : (Task.http d).order i = none := by rw [Task.order, hp]; rfl
    refine .carried ?_ rfl (published_idle hstep hnone)
    rw [hnone, Task.order]
    simp only [Api.deliver]
    split <;> rfl

theorem conveys_step {l l' : Task E} {a : TaskAct} {w' : World E} (hroom : w.app.config.HasRoom E)
    (hc : ∀ c, l = .ws c → c.Shaped) (h : Task.step w i l a = some (w', l')) : Conveys w w' i l a l' := by
  cases l with
  | http d =>
    obtain ⟨d', b, rfl, rfl, hs⟩ := step_http h
    exact conveys_call hroom hs
  | ws c =>
    obtain ⟨c', rfl, hs⟩ := step_ws h
    by_cases hread : ∃ b, a = .reader b
    · obtain ⟨b, rfl⟩ := hread
      exact conveys_reader hroom hs
    · exact conveys_elsewhere (hc c rfl) hs fun b e => hread ⟨b, e⟩

/-! ### Every run -/

theorem task_of_published {l l' : Task E} {a : TaskAct} {w' : World E}
    (h : Task.step w i l a = some (w', l')) {j : ℕ} (hne : j ≠ i) :
    ofTask j w'.published = ofTask j w.published := by
  rcases published_step h with hsame | ⟨ch, q, hq, hmore⟩
  · rw [hsame]
  · have horigin := order_origin (order_of_publication hq)
    have hnone : ofTask j [q] = [] := by simp [ofTask, horigin, Ne.symm hne]
    rw [hmore, ofTask_append, hnone, List.append_nil]

/-- Whoever is not there yet has published nothing. -/
theorem ofTask_absent {ok : ServerState E → ServerAct E → Prop} (h : Runs config ok p) {k : ℕ}
    (hk : p.threads.length ≤ k) : ofTask k p.shared.published = [] := by
  refine (Prog.rely_guarantee (J := fun n w => ∀ k, n ≤ k → ofTask k w.published = [])
    (K := fun _ _ _ => True) ?_ ?_ ?_ ?_ ?_ h).shared k hk
  · exact ⟨fun _ _ => rfl, fun _ _ _ => trivial⟩
  · intro p request _ hI
    exact ⟨fun k hk => hI.shared k (Nat.le_of_succ_le hk), trivial⟩
  · intro p i l a w' l' _ hI _ hl (hs : Task.step p.shared i l a = some (w', l'))
    have hlt : i < p.threads.length := (List.getElem?_eq_some_iff.mp hl).1
    refine ⟨fun k hk => ?_, trivial⟩
    rw [task_of_published hs (by omega)]
    exact hI.shared k hk
  · intro _ _ _ _ _ _ _ _ _ _ _ _ _ _ _
    trivial
  · intro p e w' hI he
    cases he
    exact ⟨hI.shared, fun _ _ _ => trivial⟩

/-- The runs of the server with what its tasks accept for publishing. -/
def AcceptRuns (config : Config) (s : ServerState E × List (ℕ × Publish E)) : Prop :=
  LogReach (server E).next (journal Task.accepts) always (boot E config) s

/-- A call was answered with the number of receivers. -/
def CallPc.isPublished : CallPc E → Bool
  | .done (.published _) => true
  | _ => false

/-- What was accepted of a task, against what it published. -/
structure Once (w : World E) (i : ℕ) (l : Task E) (log : List (Publish E)) : Prop where
  /-- Each was published once and in order, but for the one in hand. -/
  published : log = ofTask i w.published ++ (l.order i).toList
  /-- A call published if its answer says so, and otherwise not. -/
  answered : ∀ d, l = .http d → (ofTask i w.published).length = d.pc.isPublished.toNat

/-- A call answers with a number in the very step that publishes. -/
theorem answer_step {d : Call E} {a : CallAct} {s : World E × Call E} (h : Api.step w i d a = some s) :
    (∃ q : Publish E, q.origin.task = i ∧ s.1.published = w.published ++ [q] ∧
        d.pc.isPublished = false ∧ s.2.pc.isPublished = true) ∨
      (ofTask i s.1.published = ofTask i w.published ∧ d.pc.isPublished = false ∧
        s.2.pc.isPublished = false) := by
  cases a with
  | resolve =>
    simp only [Api.step] at h
    split at h <;> cases h
    rename_i hp
    refine .inr ⟨rfl, by rw [hp]; rfl, ?_⟩
    simp only [Api.resolve]
    split
    · rfl
    · split
      · simp only [Api.publish]
        split <;> rfl
      · simp only [Api.direct]
        split <;> rfl
  | locate =>
    simp only [Api.step] at h
    split at h <;> cases h
    rename_i topicKey encoded hp
    simp only [Api.locate]
    split
    · rename_i hs
      exact .inr ⟨congrArg (ofTask i) (published_topicSender hs), by rw [hp]; rfl, rfl⟩
    · exact .inr ⟨rfl, by rw [hp]; rfl, rfl⟩
  | send =>
    simp only [Api.step] at h
    split at h <;> cases h
    rename_i topicKey ch encoded hp
    exact .inl ⟨⟨topicKey, d.identity, .http i, encoded⟩, rfl, published_publish w ch _, by rw [hp]; rfl, rfl⟩
  | direct =>
    have hstep : Task.step w i (.http d) (.call .direct) = some (s.1, .http s.2) := by
      simp only [Task.step, h, Option.map_some]
    simp only [Api.step] at h
    split at h <;> cases h
    rename_i target encoded hp
    have hnone : (Task.http d).order i = none := by rw [Task.order, hp]; rfl
    refine .inr ⟨congrArg (ofTask i) (published_idle hstep hnone), by rw [hp]; rfl, ?_⟩
    simp only [Api.deliver]
    split <;> rfl

theorem Once.call_step {d : Call E} {a : CallAct} {s : World E × Call E} {log : List (Publish E)}
    (h : Once w i (.http d) log) (hs : Api.step w i d a = some s) :
    (ofTask i s.1.published).length = s.2.pc.isPublished.toNat := by
  have hold := h.answered d rfl
  rcases answer_step hs with ⟨q, hq, hmore, hbefore, hafter⟩ | ⟨hsame, hbefore, hafter⟩
  · have hone : ofTask i [q] = [q] := by simp [ofTask, hq]
    rw [hmore, ofTask_append, List.length_append, hold, hbefore, hafter, hone]
    rfl
  · rw [hsame, hold, hbefore, hafter]

/-- Whatever a step does to the publication in hand, what was accepted stays accounted for. -/
theorem Conveys.accounted {l l' : Task E} {a : TaskAct} {w' : World E} {log : List (Publish E)}
    (h : Conveys w w' i l a l') (hold : log = ofTask i w.published ++ (l.order i).toList) :
    log ++ l.accepts w i a l' = ofTask i w'.published ++ (l'.order i).toList := by
  cases h with
  | accepted before tells same =>
    rw [before, Option.toList_none, List.append_nil] at hold
    rw [tells, same, hold]
  | carried kept tells same => rw [tells, same, kept, List.append_nil, hold]
  | sent q before after tells more =>
    have hone : ofTask i [q] = [q] := by simp [ofTask, order_origin before]
    rw [tells, more, after, ofTask_append, hone, hold, before]
    simp

theorem once_step {l l' : Task E} {a : TaskAct} {w' : World E} {log : List (Publish E)}
    (hroom : w.app.config.HasRoom E) (hc : ∀ c, l = .ws c → c.Shaped)
    (hs : Task.step w i l a = some (w', l')) (h : Once w i l log) :
    Once w' i l' (log ++ l.accepts w i a l') := by
  refine ⟨(conveys_step hroom hc hs).accounted h.published, ?_⟩
  intro d' hd'
  subst hd'
  cases l with
  | ws c =>
    obtain ⟨c', hc', -⟩ := step_ws hs
    cases hc'
  | http d =>
    obtain ⟨d'', b, hd, rfl, hstep⟩ := step_http hs
    cases hd
    exact h.call_step hstep

/-- What was accepted of a task for publishing is published exactly once, in order, but for what it has
    in hand; and a call published exactly if it was answered so. -/
theorem published_once {s : ServerState E × List (ℕ × Publish E)} (hroom : config.HasRoom E)
    (h : AcceptRuns config s) {l : Task E} (hl : s.1.threads[i]? = some l) :
    Once s.1.shared i l (entriesOf s.2 i) := by
  refine (Prog.journal_rule (K := Once) rfl ?_ ?_ ?_ ?_ h).each i l hl
  · intro p request hr
    refine ⟨?_, ?_⟩
    · rw [ofTask_absent hr (Nat.le_refl _)]
      cases request <;> rfl
    · intro d hd
      rw [ofTask_absent hr (Nat.le_refl _)]
      cases request with
      | ws ip query => cases hd
      | api authorization request =>
        cases hd
        rfl
  · intro p i l a w' l' es hr _ hl hs hI
    have hconfig : p.shared.app.config = config := (booked_run hr).shared.configured
    refine once_step (by rw [hconfig]; exact hroom) ?_ hs hI
    intro c hc
    rw [hc] at hl
    exact shaped_run hr (session_eq_some.mpr hl)
  · intro p i l a w' l' j m es _ _ hne _ _ hs hI
    have hsame := task_of_published hs hne
    exact ⟨by rw [hsame]; exact hI.published, fun d hd => by rw [hsame]; exact hI.answered d hd⟩
  · intro w e w' j m es he hI
    cases he
    exact ⟨hI.published, hI.answered⟩

/-- Alice publishes a message in each of two seconds; the second one she has in hand. -/
def twoOfAlice : List (ServerAct Ext.plain) :=
  .spawn (loginAs "alice") :: steps 0 (handshakeSteps ++ registerSteps ++ spawnSteps ++
      [.reader (.frame (.text "\x7b\"kind\":\"publish\",\"payload\":\"hi\"\x7d")), .reader .tenantRate,
        .reader .locate, .reader .send]) ++
    .env 1000000000 ::
      steps 0 [.reader (.frame (.text "\x7b\"kind\":\"publish\",\"payload\":\"hi\"\x7d")),
        .reader .tenantRate]

theorem published_once_alice : ∃ (p : ServerState Ext.plain) (l : Task Ext.plain)
    (log : List (Publish Ext.plain)), log.length = 2 ∧ (l.order 0).isSome = true ∧ Once p.shared 0 l log := by
  obtain ⟨p, log, h, hcheck⟩ := exec_log_check (server Ext.plain).next (journal Task.accepts)
    (fun _ _ => true) (boot Ext.plain Config.plain) twoOfAlice
    (fun (p : ServerState Ext.plain) log => decide ((entriesOf log 0).length = 2) &&
      p.threads[0]?.any fun l => (l.order 0).isSome)
    (by decide +kernel)
  obtain ⟨hlen, hany⟩ := Bool.and_eq_true_iff.mp hcheck
  obtain ⟨l, hl, hsome⟩ := (Option.any_eq_true _ _).mp hany
  have hrun : AcceptRuns Config.plain (p, log) := h.mono fun _ _ _ => trivial
  exact ⟨p, l, entriesOf log 0, of_decide_eq_true hlen, hsome, published_once hasRoom_plain hrun hl⟩

end WsServer
