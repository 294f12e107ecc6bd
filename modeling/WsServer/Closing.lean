import WsServer.Clients

/-! Closes that the server starts. The reader puts an error and a `Close` into the queue and ends; the
    supervisor then aborts the writer without waiting for the queue. The queue is a FIFO all the way to
    the socket, so the two arrive exactly as long as the writer is not stopped with the `Close` still
    in the queue or in its hands. -/

namespace WsServer

open Lib

variable {E : Ext} {w : World E} {i : ℕ} {c : Session E} {r : World E × Session E}

/-- What the writer took from the queue and has not written. -/
def Session.hand (c : Session E) : List (Item E) :=
  match c.writer with
  | .writing x => [x]
  | _ => []

/-- The place of the `Close` of a reader that ended with everything it meant to say in the queue. -/
def ReaderEnd.closeAt : ReaderEnd → Option ℕ
  | .rateLimited (some _) close => close
  | .idleTimeout close => close
  | _ => none

/-- The `rate_limited` error. -/
def Item.IsLimitError (x : Item E) : Prop :=
  ∃ encoded, encodeServerEvent (.error "rate_limited" "message rate limit exceeded") = some encoded ∧
    x = ⟨.binary encoded, .reply⟩

/-- The messages of such a reader stand in a list of items at the places they were given. -/
def Says (l : List (Item E)) : ReaderEnd → Prop
  | .rateLimited (some error) (some close) =>
    error < close ∧ (∃ x, l[error]? = some x ∧ x.IsLimitError) ∧
      l[close]? = some ⟨.close 1008 "rate limit exceeded", .close⟩
  | .idleTimeout (some close) => l[close]? = some ⟨.close 1000 "idle timeout", .close⟩
  | _ => True

/-- When `connection_loop` has returned, what the reader found room for was written to the socket. -/
def ClosesReach (p : ServerState E) : Prop :=
  ∀ i c how, p.session i = some c → 14 ≤ c.stage.rank → c.reader = .ended how → Says c.written how

/-- No socket write fails. -/
def writesSucceed (_ : ServerState E) : ServerAct E → Bool
  | .run _ (.writer (.pinged succeeds)) | .run _ (.writer (.wrote succeeds)) => succeeds
  | _ => true

/-- The reader ended and its `Close` is in the queue or in the hands of the writer. -/
def World.closePending (w : World E) (i : ℕ) (c : Session E) : Bool :=
  match c.reader with
  | .ended how =>
    how.closeAt.isSome && (c.hand ++ (w.queues i).buf).any fun x => x.source = .close
  | _ => false

/-- No socket write fails, and the writer is not stopped, by the supervisor or by the panic of
    `interval`, while a `Close` is pending. -/
def closesApart (p : ServerState E) (a : ServerAct E) : Bool :=
  writesSucceed p a &&
    match a with
    | .run i (.supervise (.cancel .writer)) =>
      match p.session i with
      | some c => !p.shared.closePending i c
      | none => true
    | .run i (.writer .start) =>
      match p.session i with
      | some c => !(p.shared.app.config.heartbeatInterval = 0 && p.shared.closePending i c)
      | none => true
    | _ => true

/-! ### Lists of items -/

theorem Says.of_extension {l l' : List (Item E)} {how : ReaderEnd} (h : Says l how)
    (hp : l <+: l') : Says l' how := by
  obtain ⟨ext, rfl⟩ := hp
  have keep : ∀ {k : ℕ} {x : Item E}, l[k]? = some x → (l ++ ext)[k]? = some x := fun hk =>
    (List.getElem?_append_left (List.getElem?_eq_some_iff.mp hk).1).trans hk
  unfold Says at h ⊢
  split
  · obtain ⟨hlt, ⟨x, hx, herr⟩, hc⟩ := h
    exact ⟨hlt, ⟨x, keep hx, herr⟩, keep hc⟩
  · exact keep h
  · trivial

/-- What stands in a list stands in a part of it that reaches as far as the `Close`. -/
theorem Says.restrict {l l' : List (Item E)} {how : ReaderEnd} (h : Says l' how) (hp : l <+: l')
    (hk : ∀ k, how.closeAt = some k → k < l.length) : Says l how := by
  obtain ⟨ext, rfl⟩ := hp
  have keep : ∀ {k : ℕ} {x : Item E}, k < l.length → (l ++ ext)[k]? = some x → l[k]? = some x :=
    fun hlt hx => (List.getElem?_append_left hlt).symm.trans hx
  unfold Says at h ⊢
  split
  · obtain ⟨hlt, ⟨x, hx, herr⟩, hc⟩ := h
    have hclose := hk _ rfl
    exact ⟨hlt, ⟨x, keep (hlt.trans hclose) hx, herr⟩, keep hclose hc⟩
  · exact keep (hk _ rfl) h
  · trivial

/-- The `Close` has its place. -/
theorem Says.close {l : List (Item E)} {how : ReaderEnd} {k : ℕ} (h : Says l how)
    (hk : how.closeAt = some k) : ∃ x, l[k]? = some x ∧ x.source = .close := by
  unfold ReaderEnd.closeAt at hk
  split at hk
  · subst hk; exact ⟨_, h.2.2, rfl⟩
  · subst hk; exact ⟨_, h, rfl⟩
  · cases hk

/-! ### The queue is a FIFO -/

/-- The writer will write no more. -/
def Session.writerGone (c : Session E) : Bool := c.hasEnded .writer || c.isCancelled .writer

/-- The reader has promised nothing. -/
def ReaderPc.isPlain : ReaderPc E → Bool
  | .limitedClose error => error.isNone
  | .ended how => how.closeAt.isNone
  | _ => true

/-- Every item ever placed is written, in hand, or in the buffer, in this order, until the queue is
    closed; and a `Close` that the reader left is in it or was written. -/
structure Fifo (q : Queue (Item E)) (c : Session E) : Prop where
  written : c.written ++ c.hand <+: q.placed
  closed : q.isOpen = false → q.buf = []
  live : q.isOpen = true → q.placed = c.written ++ c.hand ++ q.buf
  limited : ∀ k, c.reader = .limitedClose (some k) → ∃ x, q.placed[k]? = some x ∧ x.IsLimitError
  said : ∀ how, c.reader = .ended how → Says q.placed how
  kept : ∀ how k, c.reader = .ended how → how.closeAt = some k →
    q.isOpen = true ∨ k < c.written.length
  gone : c.writerGone = true → q.isOpen = false
  joined : 12 ≤ c.stage.rank ∨ c.stage = .selected .writer → c.writerGone = true

/-- A step that changes neither the queue nor what concerns it. -/
theorem Fifo.still {q : Queue (Item E)} {c' : Session E} (h : Fifo q c)
    (hw : c'.writer = c.writer) (hwritten : c'.written = c.written)
    (hr : c'.reader = c.reader ∨ c'.reader.isPlain = true)
    (hst : 12 ≤ c'.stage.rank ∨ c'.stage = .selected .writer → c.writerGone = true) : Fifo q c' := by
  have hhand : c'.hand = c.hand := by simp only [Session.hand, hw]
  have hgone : c'.writerGone = c.writerGone := by
    simp only [Session.writerGone, Session.hasEnded, Session.isCancelled, hw]
  refine ⟨?_, h.closed, ?_, fun k hk => ?_, fun how hh => ?_, fun how k hh hk => ?_, ?_, ?_⟩
  · -- written
    rw [hwritten, hhand]; exact h.written
  · -- live
    rw [hwritten, hhand]; exact h.live
  · -- limited
    rcases hr with hr | hr
    · exact h.limited k (hr.symm.trans hk)
    · rw [hk] at hr; cases hr
  · -- said
    rcases hr with hr | hr
    · exact h.said how (hr.symm.trans hh)
    · rw [hh, ReaderPc.isPlain, Option.isNone_iff_eq_none] at hr
      unfold ReaderEnd.closeAt at hr
      unfold Says
      split <;> trivial
  · -- kept
    rw [hwritten]
    rcases hr with hr | hr
    · exact h.kept how k (hr.symm.trans hh) hk
    · rw [hh, ReaderPc.isPlain, hk] at hr; cases hr
  · -- gone
    rw [hgone]; exact h.gone
  · -- joined
    rw [hgone]; exact hst

/-- A send into the queue, by whomever. -/
theorem Fifo.push {q q' : Queue (Item E)} {x : Item E} (h : Fifo q c) (hq : q.trySend x = .ok q') :
    Fifo q' c := by
  obtain ⟨ho, -, rfl⟩ := Queue.trySend_ok hq
  refine ⟨h.written.trans (List.prefix_append _ _), fun hc => ?_, fun _ => ?_, fun k hk => ?_,
    fun how hh => ?_, fun how k hh hk => Or.inl ho, h.gone, h.joined⟩
  · rw [ho] at hc; cases hc
  · rw [h.live ho]; simp
  · obtain ⟨y, hy, herr⟩ := h.limited k hk
    exact ⟨y, (List.getElem?_append_left (List.getElem?_eq_some_iff.mp hy).1).trans hy, herr⟩
  · exact (h.said how hh).of_extension (List.prefix_append _ _)

/-- The last send of the reader. -/
theorem Fifo.last {q q' : Queue (Item E)} {x : Item E} {how : ReaderEnd} (h : Fifo q c)
    (hq : q.trySend x = .ok q') (hsaid : Says q'.placed how) : Fifo q' { c with reader := .ended how } := by
  have hp := h.push hq
  obtain ⟨ho, -, hq'⟩ := Queue.trySend_ok hq
  refine ⟨hp.written, hp.closed, hp.live, by rintro k ⟨⟩, fun how' hh => ?_, fun how' k hh hk => ?_,
    hp.gone, hp.joined⟩
  · cases hh
    exact hsaid
  · rw [hq']
    exact Or.inl ho

theorem Fifo.grew {w' : World E} {P : Item E → Prop} (h : Fifo (w.queues i) c)
    (hg : World.Grew w w' i P) : Fifo (w'.queues i) c := by
  rcases hg with hq | ⟨x, -, hq⟩
  · rw [hq]; exact h
  · exact h.push hq

theorem hand_of_writerGone (h : c.writerGone = true) : c.hand = [] := by
  unfold Session.writerGone Session.hasEnded Session.isCancelled at h
  unfold Session.hand
  cases hw : c.writer with
  | writing x => rw [hw] at h; cases h
  | _ => rfl

/-- The writer works on, and the queue stays as it is. -/
theorem Fifo.turn {q : Queue (Item E)} {c' : Session E} (h : Fifo q c)
    (hwh : c'.written ++ c'.hand = c.written ++ c.hand)
    (hle : c.written.length ≤ c'.written.length) (hgone : c.writerGone = false)
    (hgone' : c'.writerGone = false) (hr : c'.reader = c.reader)
    (hst : 12 ≤ c'.stage.rank ∨ c'.stage = .selected .writer →
      12 ≤ c.stage.rank ∨ c.stage = .selected .writer) : Fifo q c' := by
  refine ⟨by rw [hwh]; exact h.written, h.closed, by rw [hwh]; exact h.live, ?_, ?_,
    fun how k hh hk => ?_, fun hg => ?_, fun hj => ?_⟩
  · rw [hr]; exact h.limited
  · rw [hr]; exact h.said
  · exact (h.kept how k (hr.symm.trans hh) hk).imp_right fun hlt => hlt.trans_le hle
  · rw [hgone'] at hg; cases hg
  · have hg := h.joined (hst hj)
    rw [hgone] at hg; cases hg

/-- The writer stops, and no `Close` is pending. -/
theorem Fifo.stop {c' : Session E} (h : Fifo (w.queues i) c) (hpend : w.closePending i c = false)
    (hw : c'.writerGone = true) (hwritten : c'.written = c.written) (hr : c'.reader = c.reader) :
    Fifo (w.queues i).close c' := by
  refine ⟨?_, fun _ => rfl, nofun, fun k hk => ?_, fun how hh => ?_,
    fun how k hh hk => Or.inr ?_, fun _ => rfl, fun _ => hw⟩
  · -- written
    rw [hwritten, hand_of_writerGone hw, List.append_nil]
    exact (List.prefix_append _ _).trans h.written
  · -- limited
    exact h.limited k (hr.symm.trans hk)
  · -- said
    exact h.said how (hr.symm.trans hh)
  · -- kept
    rw [hwritten]
    have hh' := hr.symm.trans hh
    rcases h.kept how k hh' hk with hopen | hlt
    · -- what is placed and not written would be pending
      by_contra hle
      obtain ⟨x, hx, hsrc⟩ := (h.said how hh').close hk
      rw [h.live hopen, List.append_assoc, List.getElem?_append_right (by omega)] at hx
      have hany : ((c.hand ++ (w.queues i).buf).any fun x => x.source = .close) = true :=
        List.any_eq_true.mpr ⟨x, List.mem_of_getElem? hx, decide_eq_true hsrc⟩
      simp [World.closePending, hh', hk, hany] at hpend
    · exact hlt

/-! ### The steps -/

theorem isPlain_sendError (now : ℕ) (code message : String) :
    (c.sendError now code message).reader.isPlain = true := by
  unfold Session.sendError
  split <;> rfl

theorem isPlain_frame (f : Frame) : (Reader.frame w i c f).2.reader.isPlain = true := by
  have hgate : ∀ tooLarge g, (Reader.gate w c tooLarge g).2.reader.isPlain = true := by
    rintro tooLarge g
    simp only [Reader.gate]
    split
    · rfl
    · split
      · exact isPlain_sendError _ _ _
      · rfl
  cases f with
  | text t => exact hgate _ _
  | binary raw => exact hgate _ _
  | ping payload | pong | close | eof | failure => rfl

theorem isPlain_handle (f : Inbound) : (Reader.handle w c f).2.reader.isPlain = true := by
  have hevent : ∀ event, (Reader.handleClientEvent w c event).2.reader.isPlain = true := by
    rintro event
    cases event <;> simp only [Reader.handleClientEvent] <;> split <;>
      first | rfl | exact isPlain_sendError _ _ _
  cases f <;> simp only [Reader.handle] <;> split <;>
    first | exact hevent _ | exact isPlain_sendError _ _ _

/-- The error of the rate limit takes the place it is said to. -/
theorem fifo_limitError (h : Fifo (w.queues i) c) :
    Fifo ((Reader.limitError w i c).1.queues i) (Reader.limitError w i c).2 := by
  unfold Reader.limitError
  split
  · rename_i encoded henc
    have hq := World.queues_sendEncoded w i encoded .reply
    simp only [World.sendEncoded_fst]
    rcases World.trySend_cases w i ⟨.binary encoded, .reply⟩ with ⟨q, hs, ht⟩ | ⟨-, ht⟩
    · rw [ht] at hq ⊢
      rw [hq, World.queues_setQueue, Function.update_self]
      have hp := h.push hs
      refine ⟨hp.written, hp.closed, hp.live, fun k hk => ?_, nofun, nofun, hp.gone, hp.joined⟩
      cases hk
      rw [(Queue.trySend_ok hs).2.2]
      exact ⟨_, List.getElem?_concat_length, encoded, henc, rfl⟩
    · rw [ht] at hq ⊢
      rw [hq]
      exact h.still rfl rfl (Or.inr rfl) h.joined
  · exact h.still rfl rfl (Or.inr rfl) h.joined

/-- The `Close` of the rate limit comes after its error. -/
theorem fifo_limitClose {error : Option ℕ} (h : Fifo (w.queues i) c)
    (hr : c.reader = .limitedClose error) :
    Fifo ((Reader.limitClose w i c error).1.queues i) (Reader.limitClose w i c error).2 := by
  simp only [Reader.limitClose]
  rcases World.trySend_cases w i ⟨.close 1008 "rate limit exceeded", .close⟩ with
    ⟨q, hs, ht⟩ | ⟨-, ht⟩
  · rw [ht, World.queues_setQueue, Function.update_self]
    refine h.last hs ?_
    cases error with
    | none => trivial
    | some e =>
      obtain ⟨x, hx, herr⟩ := h.limited e hr
      have hlt := (List.getElem?_eq_some_iff.mp hx).1
      rw [(Queue.trySend_ok hs).2.2]
      exact ⟨hlt, ⟨x, (List.getElem?_append_left hlt).trans hx, herr⟩, List.getElem?_concat_length⟩
  · rw [ht]
    exact h.still rfl rfl (Or.inr (by cases error <;> rfl)) h.joined

theorem fifo_idleTimeout (h : Fifo (w.queues i) c) :
    Fifo ((Reader.idleTimeout w i c).1.queues i) (Reader.idleTimeout w i c).2 := by
  simp only [Reader.idleTimeout]
  rcases World.trySend_cases w i ⟨.close 1000 "idle timeout", .close⟩ with ⟨q, hs, ht⟩ | ⟨-, ht⟩
  · rw [ht, World.queues_setQueue, Function.update_self]
    refine h.last hs ?_
    rw [(Queue.trySend_ok hs).2.2]
    exact List.getElem?_concat_length
  · rw [ht]
    exact h.still rfl rfl (Or.inr rfl) h.joined

theorem fifo_reader {a : ReaderAct} (h : Fifo (w.queues i) c) (hs : Reader.step w i c a = some r) :
    Fifo (r.1.queues i) r.2 := by
  have hf := Reader.step_framed hs
  have plain : r.2.reader.isPlain = true → Fifo (r.1.queues i) r.2 := fun hp =>
    (h.grew (hf.queues i)).still hf.kept.writer hf.kept.written (Or.inr hp)
      (by rw [hf.kept.stage]; exact h.joined)
  cases a with
  | limitError =>
    simp only [Reader.step] at hs
    split at hs <;> cases hs
    exact fifo_limitError h
  | limitClose =>
    simp only [Reader.step] at hs
    split at hs <;> cases hs
    exact fifo_limitClose h ‹_›
  | idleTimeout =>
    simp only [Reader.step] at hs
    split at hs
    · split at hs <;> cases hs
      exact fifo_idleTimeout h
    · cases hs
  | frame f =>
    apply plain
    simp only [Reader.step] at hs
    split at hs <;> cases hs
    exact isPlain_frame f
  | tenantRate =>
    apply plain
    simp only [Reader.step] at hs
    split at hs <;> cases hs
    simp only [Reader.tenantRate]
    split
    · exact isPlain_sendError _ _ _
    · exact isPlain_handle _
  | locate =>
    apply plain
    simp only [Reader.step] at hs
    split at hs <;> cases hs
    unfold Reader.locate
    split <;> rfl
  | direct =>
    apply plain
    simp only [Reader.step] at hs
    split at hs <;> cases hs
    simp only [Reader.direct]
    split
    · exact isPlain_sendError _ _ _
    · rfl
  | start | send | reply =>
    apply plain
    simp only [Reader.step] at hs
    split at hs <;> cases hs
    rfl

theorem fifo_pop {x : Item E} {q : Queue (Item E)} (h : Fifo (w.queues i) c)
    (hw : c.writer = .idle) (hq : (w.queues i).recv = some (x, q)) :
    Fifo q { c with writer := .writing x } := by
  obtain ⟨hbuf, hsame⟩ := Queue.recv_some hq
  have hopen : (w.queues i).isOpen = true := by
    by_contra hno
    rw [h.closed (by simpa using hno)] at hbuf; cases hbuf
  have hlive := h.live hopen
  rw [show c.hand = [] by rw [Session.hand, hw], List.append_nil, hbuf] at hlive
  have hplaced : q.placed = c.written ++ [x] ++ q.buf := by
    rw [hsame, List.append_assoc]; exact hlive
  have hgone : c.writerGone = false := by
    simp only [Session.writerGone, Session.hasEnded, Session.isCancelled, hw]; rfl
  refine ⟨⟨q.buf, hplaced.symm⟩, fun hc => ?_, fun _ => hplaced, ?_, ?_, fun how k hh hk => ?_,
    nofun, fun hj => ?_⟩
  · rw [hsame] at hc
    rw [show (w.queues i).isOpen = false from hc] at hopen; cases hopen
  · rw [hsame]; exact h.limited
  · rw [hsame]; exact h.said
  · rw [hsame]; exact h.kept how k hh hk
  · have hg := h.joined hj
    rw [hgone] at hg; cases hg

/-- A writer step without a failing write, which does not stop the writer on a pending `Close`. -/
theorem fifo_writer {a : WriterAct} (h : Fifo (w.queues i) c)
    (hpinged : a ≠ .pinged false) (hwrote : a ≠ .wrote false)
    (hstart : a = .start → w.app.config.heartbeatInterval = 0 → w.closePending i c = false)
    (hs : Writer.step w i c a = some r) : Fifo (r.1.queues i) r.2 := by
  have hhand : ∀ {d : Session E}, (∀ x, d.writer ≠ .writing x) → d.hand = [] := by
    rintro d hd
    unfold Session.hand
    split
    · exact absurd ‹_› (hd _)
    · rfl
  have hgone : ∀ {d : Session E}, d.writer ≠ .failed → d.writer ≠ .cancelled →
      d.writerGone = false := by
    rintro d h1 h2
    unfold Session.writerGone Session.hasEnded Session.isCancelled
    cases hd : d.writer <;> simp_all
  cases a with
  | start =>
    simp only [Writer.step] at hs
    split at hs <;> cases hs
    rename_i hw
    simp only [Writer.start]
    split
    · rw [World.queues_closeQueue, Function.update_self]
      exact h.stop (hstart rfl ‹_›) rfl rfl rfl
    · refine h.turn ?_ le_rfl (hgone (by simp [hw]) (by simp [hw])) rfl rfl id
      rw [hhand (by simp), hhand (by simp [hw])]
  | beat =>
    simp only [Writer.step] at hs
    split at hs
    · rename_i hw
      split at hs <;> cases hs
      refine h.turn ?_ le_rfl (hgone (by simp [hw]) (by simp [hw])) rfl rfl id
      rw [hhand (by simp), hhand (by simp [hw])]
    · cases hs
  | pinged succeeds =>
    simp only [Writer.step] at hs
    split at hs <;> cases hs
    rename_i hw
    cases succeeds with
    | false => exact absurd rfl hpinged
    | true =>
      refine h.turn ?_ le_rfl (hgone (by simp [hw]) (by simp [hw])) rfl rfl id
      rw [hhand (by simp [Writer.pinged]), hhand (by simp [hw])]
      rfl
  | pop =>
    simp only [Writer.step] at hs
    split at hs
    · rename_i hw
      rw [Option.map_eq_some_iff] at hs
      obtain ⟨⟨x, q⟩, hq, rfl⟩ := hs
      rw [World.queues_setQueue, Function.update_self]
      exact fifo_pop h hw hq
    · cases hs
  | wrote succeeds =>
    simp only [Writer.step] at hs
    split at hs <;> cases hs
    rename_i x hw
    cases succeeds with
    | false => exact absurd rfl hwrote
    | true =>
      refine h.turn ?_ (by simp [Writer.wrote]) (hgone (by simp [hw]) (by simp [hw])) rfl rfl id
      rw [show c.hand = [x] by rw [Session.hand, hw], hhand (by simp [Writer.wrote]),
        List.append_nil]
      rfl

theorem fifo_supervise {a : SuperviseAct} (h : Fifo (w.queues i) c)
    (hcancel : a = .cancel .writer → w.closePending i c = false)
    (hs : Supervise.step w i c a = some r) : Fifo (r.1.queues i) r.2 := by
  cases a with
  | select t =>
    simp only [Supervise.step, Option.ite_none_right_eq_some, Option.some.injEq] at hs
    obtain ⟨⟨-, hend⟩, rfl⟩ := hs
    refine h.still rfl rfl (Or.inl rfl) ?_
    rintro (hj | hj)
    · simp [Stage.rank] at hj
    · cases hj
      rw [Session.writerGone, hend, Bool.true_or]
  | cancel t =>
    simp only [Supervise.step] at hs
    split at hs
    · split at hs
      · cases t with
        | writer =>
          simp only [Supervise.cancel] at hs
          split at hs <;> cases hs <;> rw [World.queues_closeQueue, Function.update_self] <;>
            exact h.stop (hcancel rfl) rfl rfl rfl
        | reader =>
          simp only [Supervise.cancel] at hs
          split at hs <;> cases hs <;> exact h.still rfl rfl (Or.inr rfl) h.joined
        | fanout =>
          simp only [Supervise.cancel] at hs
          split at hs <;> cases hs
          exact h.still rfl rfl (Or.inl rfl) h.joined
      · cases hs
    · cases hs
  | join =>
    simp only [Supervise.step] at hs
    split at hs
    · rename_i first hst
      split at hs <;> cases hs
      rename_i hall
      refine h.still rfl rfl (Or.inl rfl) fun _ => ?_
      by_cases hf : first = .writer
      · exact h.joined (Or.inr (by rw [hst, hf]))
      · -- the writer is one of the two that were waited for
        refine List.all_eq_true.mp hall .writer ?_
        cases first <;> first | exact absurd rfl hf | decide
    · cases hs
  | unregisterGet =>
    simp only [Supervise.step, Option.ite_none_right_eq_some, Option.some.injEq] at hs
    obtain ⟨hst, rfl⟩ := hs
    exact h.still rfl rfl (Or.inl rfl) fun _ => h.joined (Or.inl (by simp [hst, Stage.rank]))
  | unregisterRemove =>
    simp only [Supervise.step] at hs
    split at hs <;> cases hs
    rename_i own hst
    have hq : (Supervise.unregisterRemove w c own).1.queues = w.queues := by cases own <;> rfl
    rw [hq]
    exact h.still rfl rfl (Or.inl rfl) fun _ => h.joined (Or.inl (by simp [hst, Stage.rank]))
  | close =>
    simp only [Supervise.step] at hs
    split at hs <;> cases hs
    rename_i b hst
    refine h.still rfl rfl (Or.inl rfl) ?_
    rintro (hj | hj)
    · cases b with
      | true => exact h.joined (Or.inl (by simp [hst, Stage.rank]))
      | false => simp [Stage.rank] at hj
    · cases hj

/-- Before the spawns there is neither a writer nor a promise. -/
theorem Fifo.before {q : Queue (Item E)} (hwritten : c.written = []) (hw : c.writer = .off)
    (hr : c.reader = .off) (hrank : c.stage.rank < 10) (hclosed : q.isOpen = false → q.buf = [])
    (hlive : q.isOpen = true → q.placed = q.buf) : Fifo q c := by
  have hhand : c.hand = [] := by rw [Session.hand, hw]
  refine ⟨?_, hclosed, ?_, ?_, ?_, ?_, ?_, ?_⟩
  · rw [hwritten, hhand]; exact List.nil_prefix
  · rw [hwritten, hhand]; exact hlive
  · rw [hr]; exact nofun
  · rw [hr]; exact nofun
  · rw [hr]; exact nofun
  · simp only [Session.writerGone, Session.hasEnded, Session.isCancelled, hw]; exact nofun
  · rintro (hj | hj)
    · omega
    · rw [hj] at hrank; simp [Stage.rank] at hrank

theorem fifo_setup {a : SetupAct} (hc : c.Shaped) (h : Fifo (w.queues i) c)
    (hs : Setup.step w i c a = some r) : Fifo (r.1.queues i) r.2 := by
  have hw := hc.writer
  have hr := hc.reader
  have hlive := h.live
  cases a <;> simp only [Setup.step, Option.ite_none_right_eq_some, Option.some.injEq] at hs <;>
    obtain ⟨hst, rfl⟩ := hs <;> rw [hst] at hw hr
  case accept | subscribe | number | register | spawnFanout =>
    exact h.still rfl rfl (Or.inl rfl) (by
      simp [Setup.accept, Setup.subscribe, Setup.number, Setup.register, Stage.rank])
  case spawnReader => exact h.still rfl rfl (Or.inr rfl) (by simp [Stage.rank])
  case openQueue =>
    simp only [Setup.openQueue]
    split
    · exact h.still rfl rfl (Or.inl rfl) (by simp [Stage.rank])
    · rw [World.queues_setQueue, Function.update_self]
      have hoff := hw (by decide)
      exact .before (hc.written hoff) hoff (hr (by decide)) (by simp [Stage.rank]) (fun _ => rfl)
        (fun _ => rfl)
  case locate =>
    unfold Setup.locate
    split
    · rename_i hl
      rw [World.queues_topicSender hl]
      exact h.still rfl rfl (Or.inl rfl) (by simp [Stage.rank])
    · rw [World.queues_closeQueue, Function.update_self]
      have hoff := hw (by decide)
      exact .before (hc.written hoff) hoff (hr (by decide)) (by simp [Stage.rank]) (fun _ => rfl)
        fun h => by cases h
  case ready =>
    unfold Setup.ready
    split
    · rename_i encoded _
      have hgrew := (World.grew_trySend w i ⟨.binary encoded, .ready⟩ i).congr
        (World.queues_sendEncoded w i encoded .ready)
      exact (h.grew hgrew).still rfl rfl (Or.inl rfl) (by simp [Stage.rank])
    · rw [World.queues_closeQueue, Function.update_self]
      have hoff := hw (by decide)
      exact .before (hc.written hoff) hoff (hr (by decide)) (by simp [Stage.rank]) (fun _ => rfl)
        fun h => by cases h
  case spawnWriter =>
    have hoff := hw (by decide)
    refine h.turn ?_ le_rfl ?_ rfl rfl (by simp [Stage.rank])
    · rw [show c.hand = [] by rw [Session.hand, hoff]]; rfl
    · simp only [Session.writerGone, Session.hasEnded, Session.isCancelled, hoff]; rfl

theorem closePending_of_ok {p : ServerState E} {a : TaskAct} (hc : p.session i = some c)
    (hok : closesApart p (.run i a) = true) :
    (a = .supervise (.cancel .writer) → p.shared.closePending i c = false) ∧
      (a = .writer .start → p.shared.app.config.heartbeatInterval = 0 →
        p.shared.closePending i c = false) ∧
      a ≠ .writer (.pinged false) ∧ a ≠ .writer (.wrote false) := by
  refine ⟨?_, ?_, ?_, ?_⟩
  · rintro rfl
    simpa [closesApart, writesSucceed, hc] using hok
  · rintro rfl h0
    simpa [closesApart, writesSucceed, hc, h0] using hok
  · rintro rfl
    simp [closesApart, writesSucceed] at hok
  · rintro rfl
    simp [closesApart, writesSucceed] at hok

/-- Every queue is a FIFO in every reachable state. -/
theorem fifo_run {config : Config} {p : ServerState E}
    (h : Runs config (fun p a => closesApart p a = true) p) :
    Keeps (fun _ _ => True) (fun w i c => Fifo (w.queues i) c) p := by
  refine session_rule trivial (fun _ _ _ => trivial) ?_ ?_ (fun _ _ _ _ _ _ _ _ _ => trivial) ?_
    (fun _ _ _ _ => trivial) (fun _ _ _ _ hK => hK) h
  · -- arrive
    rintro p ip query hr -
    rw [absent_run hr le_rfl]
    exact .before rfl rfl rfl (by simp [Session.arrive, Stage.rank]) (fun _ => rfl) (fun _ => rfl)
  · -- own
    rintro p i c a r hr hI hok hc hs
    refine ⟨trivial, ?_⟩
    have hK := hI.session i c hc
    have hsh := shaped_run hr hc
    obtain ⟨hcancel, hstart, hpinged, hwrote⟩ := closePending_of_ok hc hok
    cases a with
    | handshake b =>
      have hf := Handshake.step_framed hs
      rw [hf.queues]
      refine hK.still hf.writer hf.written (Or.inl hf.reader) ?_
      rcases Handshake.stage_step hs with ⟨-, hb⟩ | ⟨hst, -⟩
      · rintro (hj | hj)
        · rw [rank_of_isHandshake hb] at hj; omega
        · rw [hj] at hb; cases hb
      · rw [hst]; exact hK.joined
    | setup b => exact fifo_setup hsh hK hs
    | writer b =>
      exact fifo_writer hK (fun e => hpinged (congrArg _ e)) (fun e => hwrote (congrArg _ e))
        (fun e => hstart (congrArg _ e)) hs
    | fanout b =>
      have hf := Fanout.step_framed hs
      exact (hK.grew hf.own).still hf.writer hf.written (Or.inl hf.reader)
        (by rw [hf.stage]; exact hK.joined)
    | reader b => exact fifo_reader hK hs
    | supervise b => exact fifo_supervise hK (fun e => hcancel (congrArg _ e)) hs
    | call b => cases hs
  · -- other
    rintro p i l a w' l' j c hr hI - hne hl hc hs
    exact (hI.session j c hc).grew (queue_other hne hs)

/-- As long as the writer is not stopped on a pending `Close`, what the reader found room for is written
    before `connection_loop` returns. -/
theorem closes_reach {config : Config} {p : ServerState E}
    (h : Runs config (fun p a => closesApart p a = true) p) : ClosesReach p := by
  rintro i c how hc hrank hr
  have hK := (fifo_run h).session i c hc
  have hgone := hK.joined (Or.inl (by omega))
  refine (hK.said how hr).restrict ((List.prefix_append _ _).trans hK.written) fun k hk => ?_
  rcases hK.kept how k hr hk with hopen | hlt
  · rw [hK.gone hgone] at hopen; cases hopen
  · exact hlt

/-- Alice sends two frames at once, which is one too many. -/
def aliceLimited : List (ServerAct Ext.plain) :=
  aliceOnline ++ steps 0 (spawnSteps ++
    [.reader (.frame (.text "\x7b\"kind\":\"publish\",\"payload\":\"hi\"\x7d")),
      .reader .tenantRate, .reader .locate, .reader .send, .reader (.frame (.text "")),
      .reader .limitError, .reader .limitClose, .supervise (.select .reader)])

/-- The supervisor tears the connection down. -/
def aliceTornDown : List (ServerAct Ext.plain) :=
  steps 0 [.supervise (.cancel .writer), .supervise (.cancel .fanout), .supervise .join,
    .supervise .unregisterGet, .supervise .unregisterRemove]

/-- `connection_loop` of request 0 has returned, and its reader left error and `Close` at places 1 and
    2 behind the `Ready`. -/
def limitedBehindReady (p : ServerState Ext.plain) : Bool :=
  match p.session 0 with
  | some c =>
    c.stage = .returned true &&
      match c.reader with
      | .ended (.rateLimited (some 1) (some 2)) => true
      | _ => false
  | none => false

theorem limitedBehindReady_spec {p : ServerState Ext.plain} (h : limitedBehindReady p = true) :
    ∃ c, p.session 0 = some c ∧ c.stage = .returned true ∧
      c.reader = .ended (.rateLimited (some 1) (some 2)) := by
  unfold limitedBehindReady at h
  split at h
  · rename_i c hc
    rw [Bool.and_eq_true, decide_eq_true_eq] at h
    obtain ⟨hst, hr⟩ := h
    split at hr
    · exact ⟨c, hc, hst, ‹_›⟩
    · cases hr
  · cases h

/-- The writer empties the queue in time. -/
theorem closes_reach_alice : ∃ (p : ServerState Ext.plain) (c : Session Ext.plain),
    p.session 0 = some c ∧ c.reader = .ended (.rateLimited (some 1) (some 2)) ∧
      ClosesReach p := by
  obtain ⟨p, hp, hc⟩ := play_check Config.plain closesApart
    (aliceLimited ++ steps 0 [.writer .pop, .writer (.wrote true), .writer .pop,
      .writer (.wrote true), .writer .pop, .writer (.wrote true)] ++ aliceTornDown)
    limitedBehindReady (by decide +kernel)
  obtain ⟨c, h0, -, hr⟩ := limitedBehindReady_spec hc
  exact ⟨p, c, h0, hr, closes_reach hp⟩

/-- The supervisor is faster than the writer: nothing reaches alice. -/
theorem closes_lost : ∃ p : ServerState Ext.plain,
    Runs Config.plain (fun p a => writesSucceed p a = true) p ∧ ¬ ClosesReach p := by
  obtain ⟨p, hp, hc⟩ := play_check Config.plain writesSucceed (aliceLimited ++ aliceTornDown)
    (fun p => limitedBehindReady p && match p.session 0 with
      | some c => c.written.isEmpty
      | none => false) (by decide +kernel)
  rw [Bool.and_eq_true] at hc
  obtain ⟨c, h0, hst, hr⟩ := limitedBehindReady_spec hc.1
  refine ⟨p, hp, fun hreach => ?_⟩
  have hempty := hc.2
  rw [h0] at hempty
  obtain ⟨-, -, hclose⟩ := hreach 0 c _ h0 (by rw [hst]; decide) hr
  rw [List.isEmpty_iff.mp hempty] at hclose
  cases hclose

end WsServer
