import WsServer.Gate

/-! Refused frames over whole runs. The log of a run has an entry for every decision of a gate, and for
    every item that a reader puts into its own queue and every drop it counts while it is about a frame.
    `Course` says what the entries of the frame in work are, given where the reader is; from it follows
    what the entries of a refused frame are when it is done with. The counters are those of the source
    until one of them wraps at `2^64`. -/

namespace WsServer

open Lib

variable {E : Ext} {w : World E} {i j n : ℕ} {c : Session E} {r : World E × Session E}
  {config : Config} {p : ServerState E}

/-- What a step of a reader did with a frame, or while it was about one. -/
inductive Mark (E : Ext) where
  | verdict (v : Verdict)
  | put (x : Item E)
  | dropped

/-- A mark, with the connection and the number of the frame. -/
structure GateEntry (E : Ext) where
  conn : ℕ
  frame : ℕ
  mark : Mark E

/-- What came to queue `i` from one world to the next, and how many messages were dropped. -/
def World.marks (w w' : World E) (i : ℕ) : List (Mark E) :=
  ((w'.queues i).placed.drop (w.queues i).placed.length).map .put ++
    List.replicate (w'.app.metrics.droppedMessages - w.app.metrics.droppedMessages) .dropped

/-- The marks of a step of reader `i`. -/
def Reader.marks (w w' : World E) (i : ℕ) (c : Session E) (a : ReaderAct) : List (Mark E) :=
  if a.onFrame then (Reader.verdict w c a).toList.map .verdict ++ w.marks w' i else []

def gateLog (p : ServerState E) (a : ServerAct E) (p' : ServerState E) : List (GateEntry E) :=
  match a with
  | .run i (.reader b) =>
    match p.session i with
    | some c => (Reader.marks p.shared p'.shared i c b).map fun m => ⟨i, c.frameAt b, m⟩
    | none => []
  | _ => []

/-- The marks of frame `n` of connection `i`. -/
def marksOf (log : List (GateEntry E)) (i n : ℕ) : List (Mark E) :=
  (log.filter fun e => e.conn = i ∧ e.frame = n).map GateEntry.mark

def Mark.isHanded : Mark E → Bool
  | .verdict .handed => true
  | _ => false

/-- How many frames were handed to `handle_client_event`. -/
def handedOver (log : List (GateEntry E)) : ℕ := log.countP fun e => e.mark.isHanded

/-! ### How a refused frame ends -/

/-- One error event in the own queue, or one drop. -/
inductive Mark.IsAnswer : Mark E → Prop
  | error {x : Item E} (h : x.IsError) : IsAnswer (.put x)
  | dropped : IsAnswer .dropped

/-- The marks of a frame that was refused and answered once; after a frame over the rate of the
    connection a close may follow. -/
def Settled (why : GateRefusal) (ms : List (Mark E)) : Prop :=
  ∃ m : Mark E, m.IsAnswer ∧ (ms = [.verdict (.refused why), m] ∨
    why = .rate ∧ ∃ x : Item E, x.IsClose ∧ ms = [.verdict (.refused why), m, .put x])

/-- If the frame was refused it is settled, and the connection reads on. -/
def ReadsOn (ms : List (Mark E)) : Prop :=
  ∀ why, .verdict (.refused why) ∈ ms → why ≠ .rate ∧ Settled why ms

/-- The marks of the frame in work. -/
def Course (ms : List (Mark E)) : ReaderPc E → Prop
  | .checking _ => ms = []
  | .limited => ms = [.verdict (.refused .rate)]
  | .limitedClose _ => ∃ m : Mark E, m.IsAnswer ∧ ms = [.verdict (.refused .rate), m]
  | .ended (.rateLimited _ _) => Settled .rate ms
  | .replying encoded => ∀ why, .verdict (.refused why) ∈ ms → why ≠ .rate ∧
      ms = [.verdict (.refused why)] ∧
        ∃ code message, encodeServerEvent (E := E) (.error code message) = some encoded
  | .publishing _ _ | .sending _ _ _ | .directing _ _ => ∀ why, .verdict (.refused why) ∉ ms
  | _ => ReadsOn ms

theorem course_of_resting {pc : ReaderPc E} (h : pc.isResting = true) (ms : List (Mark E)) :
    Course ms pc ↔ ReadsOn ms := by
  cases pc with
  | ended how => cases how <;> first | exact Iff.rfl | cases h
  | _ => first | exact Iff.rfl | cases h

theorem readsOn_of_none {ms : List (Mark E)} (h : ∀ why, .verdict (.refused why) ∉ ms) :
    ReadsOn ms := fun why hwhy => absurd hwhy (h why)

/-- Without a refusal any bytes may be in hand. -/
theorem course_of_hand {pc : ReaderPc E} (h : pc.hand.isSome = true) {ms : List (Mark E)}
    (hnone : ∀ why, .verdict (.refused why) ∉ ms) : Course ms pc := by
  cases pc with
  | publishing _ _ | sending _ _ _ | directing _ _ => exact hnone
  | replying encoded => exact fun why hwhy => absurd hwhy (hnone why)
  | _ => cases h

/-! ### The marks of a step -/

theorem Silent.marks {w' : World E} (h : Silent w w') (i : ℕ) : w.marks w' i = [] := by
  simp [World.marks, h.queues, h.dropped]

/-- Only the gate gives verdicts. -/
theorem verdict_not_mem_marks (w w' : World E) (i : ℕ) (v : Verdict) :
    Mark.verdict v ∉ w.marks w' i := by
  intro h
  rcases List.mem_append.mp h with h | h
  · obtain ⟨x, -, ⟨⟩⟩ := List.mem_map.mp h
  · obtain ⟨-, ⟨⟩⟩ := List.mem_replicate.mp h

/-- A send is marked, and says whether there was room. -/
theorem marks_trySend (w : World E) (i : ℕ) (x : Item E) :
    (w.marks (w.trySend i x).2 i = [.put x] ∧ (w.trySend i x).1 = true) ∨
      (w.marks (w.trySend i x).2 i = [] ∧ (w.trySend i x).1 = false ∧
        ((w.queues i).isOpen = false ∨ (w.queues i).cap ≤ (w.queues i).buf.length)) := by
  rcases World.trySend_cases w i x with ⟨q, hq, h⟩ | ⟨hno, h⟩
  · left
    rw [h]
    simp [World.marks, World.setQueue, (Queue.trySend_ok hq).2.2]
  · right
    rw [h]
    refine ⟨by simp [World.marks], rfl, ?_⟩
    by_contra hroom
    rw [not_or, Bool.not_eq_false, not_le] at hroom
    obtain ⟨q, hq⟩ := (Queue.trySend_isOk (w.queues i) x).mpr hroom
    exact hno q hq

/-- An answer is put into the own queue or dropped for want of room. -/
theorem marks_sendEncoded (w : World E) (i : ℕ) (encoded : E.Bytes) (source : Source) :
    w.marks (w.sendEncoded i encoded source).2 i = [.put ⟨.binary encoded, source⟩] ∨
      (w.marks (w.sendEncoded i encoded source).2 i = [.dropped] ∧
        ((w.queues i).isOpen = false ∨ (w.queues i).cap ≤ (w.queues i).buf.length)) := by
  rcases marks_trySend w i ⟨.binary encoded, source⟩ with ⟨hmarks, hsent⟩ | ⟨hmarks, hsent, hfull⟩
  · left
    rw [World.sendEncoded, if_pos hsent]
    exact hmarks
  · right
    refine ⟨?_, hfull⟩
    rw [World.sendEncoded, if_neg (by rw [hsent]; exact Bool.false_ne_true)]
    rcases World.trySend_cases w i ⟨.binary encoded, source⟩ with ⟨q, -, h⟩ | ⟨-, h⟩
    · rw [h] at hsent
      cases hsent
    · rw [h]
      simp [World.marks, World.withMetrics, Metrics.messageDropped]

theorem marks_of_verdict {w' : World E} {a : ReaderAct} (ha : a.onFrame = true) {v : Verdict}
    (hv : Reader.verdict w c a = some v) (h : Silent w w') :
    Reader.marks w w' i c a = [.verdict v] := by
  rw [Reader.marks, if_pos ha, hv, h.marks]
  rfl

theorem marks_of_none {w' : World E} {a : ReaderAct} (ha : a.onFrame = true)
    (hv : Reader.verdict w c a = none) : Reader.marks w w' i c a = w.marks w' i := by
  rw [Reader.marks, if_pos ha, hv]
  rfl

/-- The answer to a refused frame. -/
theorem isAnswer_of_sendEncoded {encoded : E.Bytes}
    (henc : ∃ code message, encodeServerEvent (E := E) (.error code message) = some encoded) :
    ∃ m : Mark E, m.IsAnswer ∧ w.marks (w.sendEncoded i encoded .reply).2 i = [m] := by
  obtain ⟨code, message, henc⟩ := henc
  rcases marks_sendEncoded w i encoded .reply with h | ⟨h, -⟩
  · exact ⟨_, .error ⟨code, message, encoded, henc, rfl⟩, h⟩
  · exact ⟨_, .dropped, h⟩

/-! ### The course of a frame -/

theorem course_checking {pc : ReaderPc E} {ms : List (Mark E)} (h : pc.isChecking = true) :
    Course ms pc ↔ ms = [] := by
  cases pc with
  | checking f => exact Iff.rfl
  | _ => cases h

theorem course_working {pc : ReaderPc E} {ms : List (Mark E)} (h : pc.isWorking = true) :
    Course ms pc ↔ ∀ why, .verdict (.refused why) ∉ ms := by
  cases pc with
  | publishing _ _ | sending _ _ _ | directing _ _ => exact Iff.rfl
  | _ => cases h

theorem verdict_of_control {f : Frame} (h : f.isData = false) :
    Reader.verdict w c (.frame f) = none := by
  cases f with
  | text raw | binary raw => cases h
  | _ => rfl

/-- A step about a new frame: the old one is done with, and the new one has the marks of the step. -/
theorem course_frame {f : Frame} {ms : List (Mark E)} (hcourse : Course ms c.reader)
    (h : Passage w i c (.frame f) r) :
    ReadsOn ms ∧ Course (Reader.marks w r.1 i c (.frame f)) r.2.reader := by
  have hidle : c.reader = .idle → ReadsOn ms := by
    intro hr
    rw [hr] at hcourse
    exact hcourse
  cases h with
  | limited verdict silent idle reader =>
    rw [marks_of_verdict rfl verdict silent, reader]
    exact ⟨hidle idle, rfl⟩
  | refused why soft encoded verdict silent error reader intake =>
    rw [marks_of_verdict rfl verdict silent, reader]
    rcases intake with ⟨idle, -, -⟩ | ⟨-, ⟨⟩, -⟩
    refine ⟨hidle idle, fun why' hwhy => ?_⟩
    obtain rfl : why' = why := by simpa using hwhy
    exact ⟨soft, rfl, error⟩
  | enters verdict silent idle frame checking intake =>
    rw [marks_of_none rfl verdict, silent.marks, course_checking checking]
    exact ⟨hidle idle, rfl⟩
  | control f' act raw idle after intake =>
    cases act
    rw [marks_of_none rfl (verdict_of_control raw), course_of_resting after]
    exact ⟨hidle idle, readsOn_of_none fun why => verdict_not_mem_marks w r.1 i _⟩
  | works verdict act => exact absurd rfl (act f)
  | handed act | replies _ act | limitError _ act | limitClose act | rests act => cases act

/-- Any other step adds its marks to those of the frame. -/
theorem course_step {a : ReaderAct} (ha : ∀ f, a ≠ .frame f) {ms : List (Mark E)}
    (hcourse : Course ms c.reader) (h : Passage w i c a r) :
    Course (ms ++ Reader.marks w r.1 i c a) r.2.reader := by
  cases h with
  | limited verdict silent idle reader frame =>
    obtain ⟨f, rfl⟩ := frame
    exact absurd rfl (ha f)
  | enters verdict silent idle frame =>
    obtain ⟨f, rfl⟩ := frame
    exact absurd rfl (ha f)
  | control f act => exact absurd act (ha f)
  | refused why soft encoded verdict silent error reader intake =>
    rcases intake with ⟨-, ⟨f, rfl⟩, -⟩ | ⟨hchecking, rfl, -⟩
    · exact absurd rfl (ha f)
    · rw [(course_checking hchecking).mp hcourse, marks_of_verdict rfl verdict silent, reader]
      intro why' hwhy
      obtain rfl : why' = why := by simpa using hwhy
      exact ⟨soft, rfl, error⟩
  | handed act verdict silent checking hand intake =>
    subst act
    rw [(course_checking checking).mp hcourse, marks_of_verdict rfl verdict silent]
    exact course_of_hand hand (by simp)
  | replies encoded act before after world =>
    subst act
    rw [marks_of_none rfl rfl, world, after]
    rw [before] at hcourse
    intro why hwhy
    rcases List.mem_append.mp hwhy with hwhy | hwhy
    · obtain ⟨soft, rfl, error⟩ := hcourse why hwhy
      obtain ⟨m, hm, hmarks⟩ := isAnswer_of_sendEncoded (w := w) (i := i) error
      exact ⟨soft, m, hm, .inl (by rw [hmarks]; rfl)⟩
    · exact absurd hwhy (verdict_not_mem_marks _ _ _ _)
  | limitError encoded act before error after world =>
    subst act
    obtain ⟨e, after⟩ := after
    rw [marks_of_none rfl rfl, world, after]
    rw [before] at hcourse
    obtain ⟨m, hm, hmarks⟩ := isAnswer_of_sendEncoded (w := w) (i := i) ⟨_, _, error⟩
    refine ⟨m, hm, ?_⟩
    rw [hcourse, hmarks]
    rfl
  | limitClose act before after world =>
    subst act
    obtain ⟨e, before⟩ := before
    obtain ⟨e₁, e₂, after⟩ := after
    rw [marks_of_none rfl rfl, world, after]
    rw [before] at hcourse
    obtain ⟨m, hm, rfl⟩ := hcourse
    rcases marks_trySend w i ⟨.close 1008 "rate limit exceeded", .close⟩ with ⟨hmarks, -⟩ | ⟨hmarks, -⟩
    · exact ⟨m, hm, .inr ⟨rfl, _, ⟨_, _, rfl⟩, by rw [hmarks]; rfl⟩⟩
    · exact ⟨m, hm, .inl (by rw [hmarks]; rfl)⟩
  | works verdict act before after intake =>
    have hnone : ∀ why, .verdict (.refused why) ∉ ms ++ Reader.marks w r.1 i c a := by
      intro why hwhy
      rcases List.mem_append.mp hwhy with hwhy | hwhy
      · exact (course_working before).mp hcourse why hwhy
      · cases hact : a.onFrame with
        | true =>
          rw [marks_of_none hact verdict] at hwhy
          exact verdict_not_mem_marks _ _ _ _ hwhy
        | false =>
          rw [Reader.marks, hact] at hwhy
          cases hwhy
    rcases after with after | after
    · exact (course_of_resting after _).mpr (readsOn_of_none hnone)
    · exact course_of_hand after hnone
  | rests act before after intake =>
    have hmarks : Reader.marks w r.1 i c a = [] := by
      rw [Reader.marks, act]
      rfl
    rw [hmarks, List.append_nil]
    exact (course_of_resting after ms).mpr ((course_of_resting before ms).mp hcourse)

/-! ### Runs -/

theorem marksOf_append (log es : List (GateEntry E)) (i n : ℕ) :
    marksOf (log ++ es) i n = marksOf log i n ++ marksOf es i n := by
  simp [marksOf]

theorem marksOf_map (ms : List (Mark E)) (i j k n : ℕ) :
    marksOf (ms.map fun m => ⟨i, k, m⟩) j n = if i = j ∧ k = n then ms else [] := by
  split
  · rename_i h
    obtain ⟨rfl, rfl⟩ := h
    rw [marksOf, List.filter_eq_self.mpr, List.map_map]
    · exact List.map_id _
    · rintro e he
      obtain ⟨m, -, rfl⟩ := List.mem_map.mp he
      simp
  · rename_i h
    rw [marksOf, List.filter_eq_nil_iff.mpr]
    · rfl
    · rintro e he
      obtain ⟨m, -, rfl⟩ := List.mem_map.mp he
      simpa using h

/-- The entries of connection `i`. -/
structure Marked (log : List (GateEntry E)) (i : ℕ) (c : Session E) : Prop where
  bound : ∀ n, c.frames < n → marksOf log i n = []
  current : Course (marksOf log i c.frames) c.reader
  past : ∀ n, n < c.frames → ReadsOn (marksOf log i n)

theorem Marked.append {log es : List (GateEntry E)} (h : Marked log i c)
    (hes : ∀ n, marksOf es i n = []) : Marked (log ++ es) i c := by
  have hsame : ∀ n, marksOf (log ++ es) i n = marksOf log i n := by
    intro n
    rw [marksOf_append, hes, List.append_nil]
  refine ⟨fun n hn => ?_, ?_, fun n hn => ?_⟩
  · rw [hsame]
    exact h.bound n hn
  · rw [hsame]
    exact h.current
  · rw [hsame]
    exact h.past n hn

/-- The other tasks of the connection do not touch the frame in work. -/
theorem Marked.elsewhere {log : List (GateEntry E)} {c' : Session E} (h : Marked log i c)
    (hframes : c'.frames = c.frames)
    (hreader : c'.reader = c.reader ∨ c.reader.isResting = true ∧ c'.reader.isResting = true) :
    Marked log i c' := by
  refine ⟨fun n hn => h.bound n (by omega), ?_, fun n hn => h.past n (by omega)⟩
  rw [hframes]
  rcases hreader with hr | ⟨hr, hr'⟩
  · rw [hr]
    exact h.current
  · exact (course_of_resting hr' _).mpr ((course_of_resting hr _).mp h.current)

/-- A step of the reader records what it does. -/
theorem Marked.reader {log : List (GateEntry E)} {a : ReaderAct} (h : Marked log i c)
    (hpassage : Passage w i c a r) (hframes : r.2.frames = c.frameAt a) :
    Marked (log ++ (Reader.marks w r.1 i c a).map fun m => ⟨i, c.frameAt a, m⟩) i r.2 := by
  have hmarks : ∀ n, marksOf (log ++ (Reader.marks w r.1 i c a).map fun m => ⟨i, c.frameAt a, m⟩) i n =
      marksOf log i n ++ if c.frameAt a = n then Reader.marks w r.1 i c a else [] := by
    intro n
    rw [marksOf_append, marksOf_map]
    simp
  by_cases hframe : ∃ f, a = .frame f
  · obtain ⟨f, rfl⟩ := hframe
    obtain ⟨hpast, hcourse⟩ := course_frame h.current hpassage
    have hnext : c.frameAt (.frame f) = c.frames + 1 := rfl
    refine ⟨fun n hn => ?_, ?_, fun n hn => ?_⟩
    · rw [hmarks, h.bound n (by omega), if_neg (by omega)]
      rfl
    · rw [hmarks, hframes, if_pos rfl, h.bound _ (by omega)]
      exact hcourse
    · rw [hmarks, if_neg (by omega), List.append_nil]
      rcases Nat.lt_or_eq_of_le (Nat.le_of_lt_succ (by omega : n < c.frames + 1)) with hlt | rfl
      · exact h.past n hlt
      · exact hpast
  · have hno : ∀ f, a ≠ .frame f := fun f ha => hframe ⟨f, ha⟩
    have hat := frameAt_of_ne hno c
    have hcourse := course_step hno h.current hpassage
    refine ⟨fun n hn => ?_, ?_, fun n hn => ?_⟩
    · rw [hmarks, h.bound n (by omega), if_neg (by omega)]
      rfl
    · rw [hmarks, hframes, if_pos rfl, hat]
      exact hcourse
    · rw [hmarks, if_neg (by omega), List.append_nil]
      exact h.past n (by omega)

theorem handedOver_marks (w w' : World E) (i k : ℕ) (c : Session E) (a : ReaderAct) :
    handedOver ((Reader.marks w w' i c a).map fun m => ⟨i, k, m⟩) =
      if Reader.verdict w c a = some .handed then 1 else 0 := by
  have hnone : (w.marks w' i).countP Mark.isHanded = 0 := by
    rw [List.countP_eq_zero]
    intro m hm hhanded
    cases m with
    | verdict v => exact verdict_not_mem_marks w w' i v hm
    | _ => cases hhanded
  have hcount : handedOver ((Reader.marks w w' i c a).map fun m => ⟨i, k, m⟩) =
      (Reader.marks w w' i c a).countP Mark.isHanded := by
    rw [handedOver, List.countP_map]
    rfl
  rw [hcount, Reader.marks]
  cases hact : a.onFrame with
  | true =>
    rw [if_pos rfl, List.countP_append, hnone]
    cases Reader.verdict w c a with
    | none => rfl
    | some v => cases v <;> rfl
  | false =>
    rw [verdict_of_offFrame hact]
    rfl

/-- A frame that comes in is in the gate until it is handed over or counted as refused. -/
theorem passage_balance {a : ReaderAct} (h : Passage w i c a r) :
    r.1.intake.1 + (w.intake.2.1 + w.intake.2.2) + c.reader.isChecking.toNat =
      w.intake.1 + (r.1.intake.2.1 + r.1.intake.2.2) + r.2.reader.isChecking.toNat +
        if Reader.verdict w c a = some .handed then 1 else 0 := by
  -- a refusal counts as a protocol error or as a rate rejection, never as both
  have hcounts : ∀ why : GateRefusal, why.counts.1 = 0 ∧ why.counts.2.1 + why.counts.2.2 = 1 := by
    intro why
    cases why <;> exact ⟨rfl, rfl⟩
  cases h with
  | limited verdict silent idle reader frame intake =>
    rw [if_neg (by rw [verdict]; rintro ⟨⟩), idle, reader, intake]
    simp only [ReaderPc.isChecking, Prod.fst_add, Prod.snd_add, GateRefusal.counts]
    omega
  | refused why soft encoded verdict silent error reader intake =>
    obtain ⟨hfirst, hone⟩ := hcounts why
    rw [if_neg (by rw [verdict]; rintro ⟨⟩), reader]
    rcases intake with ⟨idle, -, intake⟩ | ⟨checking, -, intake⟩
    · rw [idle, intake]
      simp only [ReaderPc.isChecking, Prod.fst_add, Prod.snd_add]
      omega
    · rw [checking, intake]
      simp only [ReaderPc.isChecking, Prod.fst_add, Prod.snd_add, Bool.toNat_true, Bool.toNat_false]
      omega
  | enters verdict silent idle frame checking intake =>
    rw [if_neg (by rw [verdict]; rintro ⟨⟩), idle, checking, intake]
    simp only [ReaderPc.isChecking, Prod.fst_add, Prod.snd_add, Bool.toNat_true, Bool.toNat_false]
    omega
  | handed act verdict silent checking hand intake =>
    rw [if_pos verdict, checking, isChecking_of_hand hand, intake]
    rfl
  | replies encoded act before after world =>
    subst act
    rw [if_neg (by rintro ⟨⟩), before, after, world, apart_intake.sendEncoded]
    rfl
  | limitError encoded act before error after world =>
    subst act
    obtain ⟨e, after⟩ := after
    rw [if_neg (by rintro ⟨⟩), before, after, world, apart_intake.sendEncoded]
    rfl
  | limitClose act before after world =>
    subst act
    obtain ⟨e, before⟩ := before
    obtain ⟨e₁, e₂, after⟩ := after
    rw [if_neg (by rintro ⟨⟩), before, after, world, apart_intake.trySend]
    rfl
  | control f act raw idle after intake =>
    subst act
    rw [if_neg (by rw [verdict_of_control raw]; rintro ⟨⟩), idle, isChecking_of_resting after, intake]
    rfl
  | works verdict act before after intake =>
    have hafter : r.2.reader.isChecking = false := by
      rcases after with after | after
      · exact isChecking_of_resting after
      · exact isChecking_of_hand after
    rw [if_neg (by rw [verdict]; rintro ⟨⟩), isChecking_of_working before, hafter, intake]
    rfl
  | rests act before after intake =>
    rw [if_neg (by rw [verdict_of_offFrame act]; rintro ⟨⟩), isChecking_of_resting before,
      isChecking_of_resting after, intake]
    rfl

/-- The state of the gates. -/
structure Gates (p : ServerState E) (log : List (GateEntry E)) : Prop where
  balance : p.shared.intake.1 = handedOver log + (p.shared.intake.2.1 + p.shared.intake.2.2) +
    p.count fun c => c.reader.isChecking
  marked : ∀ i c, p.session i = some c → Marked log i c
  known : ∀ e ∈ log, (p.session e.conn).isSome = true

theorem marksOf_unknown {log : List (GateEntry E)} (h : ∀ e ∈ log, e.conn ≠ i) (n : ℕ) :
    marksOf log i n = [] := by
  rw [marksOf, List.filter_eq_nil_iff.mpr]
  · rfl
  · intro e he
    have hne := h e he
    simp [hne]

theorem handedOver_append (log es : List (GateEntry E)) :
    handedOver (log ++ es) = handedOver log + handedOver es := List.countP_append

/-- A connection stays in the list of requests. -/
theorem session_stays {p' : ServerState E} {a : ServerAct E} (h : (server E).next p a = some p')
    (hc : (p.session i).isSome = true) : (p'.session i).isSome = true := by
  obtain ⟨c, hc⟩ := Option.isSome_iff_exists.mp hc
  cases progress h hc with
  | own a c' now => rw [now]; rfl
  | other j l l' a ne now => rw [now]; rfl
  | quiet t now => rw [now]; rfl

theorem gateLog_other {a : ServerAct E} (h : ∀ i b, a ≠ .run i (.reader b)) (p p' : ServerState E) :
    gateLog p a p' = [] := by
  unfold gateLog
  split
  · exact absurd rfl (h _ _)
  · rfl

theorem gateLog_reader {b : ReaderAct} (hc : p.session i = some c) (p' : ServerState E) :
    gateLog p (.run i (.reader b)) p' =
      (Reader.marks p.shared p'.shared i c b).map fun m => ⟨i, c.frameAt b, m⟩ := by
  rw [gateLog, hc]

namespace Gates

variable {log : List (GateEntry E)}

theorem spawn (h : Gates p log) (request : Request E) :
    Gates ⟨p.shared, p.threads ++ [(server E).start request]⟩ log := by
  refine ⟨?_, fun i c hc => ?_, fun e he => session_stays (a := .spawn request) rfl (h.known e he)⟩
  · have hnew : Task.account (fun c : Session E => c.reader.isChecking.toNat)
        ((server E).start request) = 0 := by
      cases request <;> rfl
    have hbalance := h.balance
    rw [ServerState.count, ServerState.total, List.map_append, List.sum_append, List.map_singleton,
      List.sum_singleton, hnew, Nat.add_zero]
    exact hbalance
  · rcases getElem?_concat_cases (session_eq_some.mp hc) with hold | ⟨rfl, hnew⟩
    · exact h.marked i c (session_eq_some.mpr hold)
    · have hnone : ∀ n, marksOf log p.threads.length n = [] := by
        refine marksOf_unknown fun e he heq => ?_
        have hknown := h.known e he
        rw [heq, ServerState.session, List.getElem?_eq_none le_rfl] at hknown
        cases hknown
      have hoff : c.reader = .off := by
        cases request with
        | ws ip query => cases hnew; rfl
        | api authorization request => cases hnew
      refine ⟨fun n _ => hnone n, ?_, fun n _ => ?_⟩
      · rw [hnone, hoff]
        exact readsOn_of_none (by simp)
      · rw [hnone]
        exact readsOn_of_none (by simp)

/-- A connection steps and adds entries of its own. -/
theorem own (h : Gates p log) (hc : p.session i = some c) {w' : World E} {c' : Session E}
    {es : List (GateEntry E)} (hes : ∀ e ∈ es, e.conn = i)
    (hbalance : w'.intake.1 + (p.shared.intake.2.1 + p.shared.intake.2.2) + c.reader.isChecking.toNat =
      p.shared.intake.1 + (w'.intake.2.1 + w'.intake.2.2) + c'.reader.isChecking.toNat + handedOver es)
    (hmarked : Marked log i c → Marked (log ++ es) i c') :
    Gates ⟨w', p.threads.set i (.ws c')⟩ (log ++ es) := by
  have hl := session_eq_some.mp hc
  have hlt := (List.getElem?_eq_some_iff.mp hl).1
  have hnow : ServerState.session ⟨w', p.threads.set i (.ws c')⟩ i = some c' :=
    session_eq_some.mpr (List.getElem?_set_self hlt)
  refine ⟨?_, fun j d hd => ?_, fun e he => ?_⟩
  · -- balance
    obtain ⟨rest, hsum, hset⟩ := sum_map_set (Task.account fun c => c.reader.isChecking.toNat) hl
    have hold := h.balance
    rw [ServerState.count, ServerState.total, hsum, Task.account] at hold
    rw [ServerState.count, ServerState.total, hset, Task.account, handedOver_append]
    dsimp only
    omega
  · -- marked
    rcases getElem?_set_cases hl (session_eq_some.mp hd) with ⟨rfl, hown⟩ | ⟨hne, hother⟩
    · cases hown
      exact hmarked (h.marked j c hc)
    · exact (h.marked j d (session_eq_some.mpr hother)).append
        (marksOf_unknown fun e he heq => hne (heq.symm.trans (hes e he)))
  · -- known
    by_cases hi : e.conn = i
    · rw [hi, hnow]
      rfl
    · rcases List.mem_append.mp he with hold | hnew
      · have hknown := h.known e hold
        rw [ServerState.session, List.getElem?_set_ne (Ne.symm hi)]
        exact hknown
      · exact absurd (hes e hnew) hi

theorem reader (h : Gates p log) (hencode : ∀ event, (encodeServerEvent (E := E) event).isSome = true)
    (hc : p.session i = some c) {a : ReaderAct} (hs : Reader.step p.shared i c a = some r) :
    Gates ⟨r.1, p.threads.set i (.ws r.2)⟩
      (log ++ (Reader.marks p.shared r.1 i c a).map fun m => ⟨i, c.frameAt a, m⟩) := by
  have hpassage := reader_passage hencode hs
  refine h.own hc (fun e he => ?_) ?_ fun hmarked => hmarked.reader hpassage (frames_step hs)
  · obtain ⟨m, -, rfl⟩ := List.mem_map.mp he
    rfl
  · rw [handedOver_marks]
    exact passage_balance hpassage

/-- Of the tasks of a connection only the reader works at the gate. -/
theorem elsewhere (h : Gates p log) (hc : p.session i = some c) (hshaped : c.Shaped) {a : TaskAct}
    (ha : ∀ b, a ≠ .reader b) (hs : Session.step p.shared i c a = some r) :
    Gates ⟨r.1, p.threads.set i (.ws r.2)⟩ log := by
  obtain ⟨hframes, hreader⟩ := reader_elsewhere hshaped hs ha
  have hintake := apart_intake.elsewhere hs ha
  have hsame : r.2.reader.isChecking = c.reader.isChecking := by
    rcases hreader with hr | ⟨hr, hr'⟩
    · rw [hr]
    · rw [isChecking_of_resting hr, isChecking_of_resting hr']
  rw [← List.append_nil log]
  refine h.own hc (fun e he => by cases he) ?_ fun hmarked => ?_
  · rw [hintake, hsame]
    rfl
  · rw [List.append_nil]
    exact hmarked.elsewhere hframes hreader

theorem call (h : Gates p log) {d d' : Call E} {w' : World E} {a : CallAct}
    (hl : p.threads[i]? = some (.http d)) (hs : Api.step p.shared i d a = some (w', d')) :
    Gates ⟨w', p.threads.set i (.http d')⟩ log := by
  have hintake : w'.intake = p.shared.intake := apart_intake.call hs
  obtain ⟨rest, hsum, hset⟩ := sum_map_set (Task.account fun c => c.reader.isChecking.toNat) hl
  have hold : ∀ {j : ℕ} {c : Session E},
      ServerState.session ⟨w', p.threads.set i (.http d')⟩ j = some c ↔ p.session j = some c := by
    intro j c
    rw [session_eq_some, session_eq_some, List.getElem?_set]
    split
    · rename_i hij
      subst hij
      rw [hl]
      simp
    · exact Iff.rfl
  refine ⟨?_, fun j c hc => h.marked j c (hold.mp hc), fun e he => ?_⟩
  · have hbalance := h.balance
    rw [ServerState.count, ServerState.total, hsum] at hbalance
    rw [ServerState.count, ServerState.total, hset]
    dsimp only
    rw [hintake]
    exact hbalance
  · obtain ⟨c, hc⟩ := Option.isSome_iff_exists.mp (h.known e he)
    rw [hold.mpr hc]
    rfl

end Gates

theorem gates_run (hencode : ∀ event, (encodeServerEvent (E := E) event).isSome = true)
    {s : ServerState E × List (GateEntry E)}
    (h : LogReach (server E).next gateLog always (boot E config) s) : Gates s.1 s.2 := by
  refine h.invariant (I := Gates) ⟨rfl, fun i c hc => by simp [boot, ServerState.session] at hc,
    fun e he => by cases he⟩ ?_
  intro p log a p' hr hI _ hs
  cases a with
  | spawn request =>
    rw [Prog.next, Option.some.injEq] at hs
    subst hs
    rw [gateLog_other (by rintro i b ⟨⟩), List.append_nil]
    exact hI.spawn request
  | env d =>
    obtain ⟨w', hw, rfl⟩ := Prog.next_env hs
    cases hw
    rw [gateLog_other (by rintro i b ⟨⟩), List.append_nil]
    exact ⟨hI.balance, hI.marked, hI.known⟩
  | run i b =>
    obtain ⟨l, w', l', hl, (hstep : Task.step p.shared i l b = some (w', l')), rfl⟩ :=
      Prog.next_run hs
    cases l with
    | http d =>
      obtain ⟨d', a, rfl, rfl, hcall⟩ := step_http hstep
      rw [gateLog_other (by rintro i b ⟨⟩), List.append_nil]
      exact hI.call hl hcall
    | ws c =>
      obtain ⟨c', rfl, hsession⟩ := step_ws hstep
      have hc := session_eq_some.mpr hl
      by_cases hb : ∃ a, b = .reader a
      · obtain ⟨a, rfl⟩ := hb
        rw [gateLog_reader hc]
        exact hI.reader hencode hc hsession
      · have hno : ∀ a, b ≠ .reader a := fun a ha => hb ⟨a, ha⟩
        rw [gateLog_other (by rintro j a ⟨⟩; exact hno a rfl), List.append_nil]
        exact hI.elsewhere hc (shaped_run hr.reach hc) hno hsession

/-! ### What a refusal leaves behind -/

theorem Mark.IsAnswer.ne_verdict {m : Mark E} (h : m.IsAnswer) (v : Verdict) : .verdict v ≠ m := by
  rintro rfl
  cases h

theorem eq_rate_of_settled {ms : List (Mark E)} {why : GateRefusal} (h : Settled .rate ms)
    (hwhy : .verdict (.refused why) ∈ ms) : why = .rate := by
  obtain ⟨m, hm, rfl | ⟨-, x, -, rfl⟩⟩ := h
  · simpa [hm.ne_verdict] using hwhy
  · simpa [hm.ne_verdict] using hwhy

/-- A frame is in work. -/
def ReaderPc.hasFrame (pc : ReaderPc E) : Bool :=
  pc.isChecking || pc.isWorking ||
    match pc with
    | .replying _ | .limited | .limitedClose _ => true
    | _ => false

/-- The reader has refused a frame for the rate and does nothing else any more. -/
def ReaderPc.isOverRate : ReaderPc E → Bool
  | .limited | .limitedClose _ | .ended (.rateLimited _ _) => true
  | _ => false

theorem settled_of_course {pc : ReaderPc E} {ms : List (Mark E)} {why : GateRefusal} (h : Course ms pc)
    (hfree : pc.hasFrame = false) (hwhy : .verdict (.refused why) ∈ ms) : Settled why ms := by
  cases pc with
  | ended how =>
    cases how with
    | rateLimited _ _ =>
      obtain rfl := eq_rate_of_settled h hwhy
      exact h
    | _ => exact (h why hwhy).2
  | off | spawned | idle | cancelled => exact (h why hwhy).2
  | _ => cases hfree

theorem isOverRate_of_course {pc : ReaderPc E} {ms : List (Mark E)} (h : Course ms pc)
    (hrate : .verdict (.refused .rate) ∈ ms) : pc.isOverRate = true := by
  cases pc with
  | limited | limitedClose _ => rfl
  | ended how =>
    cases how with
    | rateLimited _ _ => rfl
    | _ => exact absurd rfl (h _ hrate).1
  | checking f =>
    rw [show ms = [] from h] at hrate
    cases hrate
  | publishing _ _ | sending _ _ _ | directing _ _ => exact absurd hrate (h _)
  | _ => exact absurd rfl (h _ hrate).1

/-- What a step about a refused frame does: `ms` are its marks, `c` is the connection after it. -/
structure Harmless (w w' : World E) (i : ℕ) (c : Session E) (why : GateRefusal) (ms : List (Mark E)) :
    Prop where
  quiet : Quiet w w' i
  noRoom : .dropped ∈ ms →
    (w.queues i).isOpen = false ∨ (w.queues i).cap ≤ (w.queues i).buf.length
  reads : why ≠ .rate → (∃ encoded, c.reader = .replying encoded) ∨ c.reader = .idle

/-- The first step about a frame. -/
theorem harmless_frame {f : Frame} {why : GateRefusal} (h : Passage w i c (.frame f) r)
    (hwhy : .verdict (.refused why) ∈ Reader.marks w r.1 i c (.frame f)) :
    Harmless w r.1 i r.2 why (Reader.marks w r.1 i c (.frame f)) := by
  cases h with
  | limited verdict silent idle reader =>
    rw [marks_of_verdict rfl verdict silent] at hwhy ⊢
    refine ⟨silent.quiet i, by simp, fun hne => ?_⟩
    exact absurd (by simpa using hwhy) hne
  | refused _ soft encoded verdict silent error reader =>
    rw [marks_of_verdict rfl verdict silent]
    exact ⟨silent.quiet i, by simp, fun _ => .inl ⟨encoded, reader⟩⟩
  | enters verdict silent idle frame checking intake =>
    rw [marks_of_none rfl verdict] at hwhy
    exact absurd hwhy (verdict_not_mem_marks _ _ _ _)
  | control f' act raw =>
    cases act
    rw [marks_of_none rfl (verdict_of_control raw)] at hwhy
    exact absurd hwhy (verdict_not_mem_marks _ _ _ _)
  | works verdict act => exact absurd rfl (act f)
  | handed act | replies _ act | limitError _ act | limitClose act | rests act => cases act

theorem noRoom_of_sendEncoded {encoded : E.Bytes} {source : Source}
    (h : .dropped ∈ w.marks (w.sendEncoded i encoded source).2 i) :
    (w.queues i).isOpen = false ∨ (w.queues i).cap ≤ (w.queues i).buf.length := by
  rcases marks_sendEncoded w i encoded source with hmarks | ⟨-, hfull⟩
  · rw [hmarks] at h
    simp at h
  · exact hfull

/-- A later step about a frame that has the marks `ms` already. -/
theorem harmless_step {a : ReaderAct} (hnew : ∀ f, a ≠ .frame f) (ha : a.onFrame = true)
    {ms : List (Mark E)} {why : GateRefusal} (hcourse : Course ms c.reader) (h : Passage w i c a r)
    (hwhy : .verdict (.refused why) ∈ ms ++ Reader.marks w r.1 i c a) :
    Harmless w r.1 i r.2 why (Reader.marks w r.1 i c a) := by
  have hnext := course_step hnew hcourse h
  cases h with
  | limited verdict silent idle reader frame =>
    obtain ⟨f, rfl⟩ := frame
    exact absurd rfl (hnew f)
  | enters verdict silent idle frame =>
    obtain ⟨f, rfl⟩ := frame
    exact absurd rfl (hnew f)
  | control f act => exact absurd act (hnew f)
  | refused _ soft encoded verdict silent error reader =>
    rw [marks_of_verdict ha verdict silent]
    exact ⟨silent.quiet i, by simp, fun _ => .inl ⟨encoded, reader⟩⟩
  | handed act verdict silent checking =>
    rw [(course_checking checking).mp hcourse, marks_of_verdict ha verdict silent] at hwhy
    simp at hwhy
  | replies encoded act before after world =>
    subst act
    rw [marks_of_none rfl rfl, world]
    exact ⟨quiet_sendEncoded w i encoded .reply, noRoom_of_sendEncoded, fun _ => .inr after⟩
  | limitError encoded act before error after world =>
    subst act
    obtain ⟨e, after⟩ := after
    rw [after] at hnext
    obtain ⟨m, hm, hms⟩ := hnext
    rw [hms] at hwhy
    rw [marks_of_none rfl rfl, world]
    refine ⟨quiet_sendEncoded w i encoded .reply, noRoom_of_sendEncoded, fun hne => ?_⟩
    exact absurd (by simpa [hm.ne_verdict] using hwhy) hne
  | limitClose act before after world =>
    subst act
    obtain ⟨e₁, e₂, after⟩ := after
    rw [after] at hnext
    rw [marks_of_none rfl rfl, world]
    refine ⟨quiet_trySend w i _, fun hdropped => ?_, fun hne => absurd (eq_rate_of_settled hnext hwhy) hne⟩
    rcases marks_trySend w i ⟨.close 1008 "rate limit exceeded", .close⟩ with ⟨hmarks, -⟩ | ⟨hmarks, -⟩
    · rw [hmarks] at hdropped
      simp at hdropped
    · rw [hmarks] at hdropped
      cases hdropped
  | works verdict act before =>
    rcases List.mem_append.mp hwhy with hold | hstep
    · exact absurd hold ((course_working before).mp hcourse why)
    · rw [marks_of_none ha verdict] at hstep
      exact absurd hstep (verdict_not_mem_marks _ _ _ _)
  | rests act =>
    rw [act] at ha
    cases ha

/-- A text or binary frame that is read changes nothing but counters, buckets and the own queue. -/
theorem quiet_frame {f : Frame} (hf : f.isData = true) (h : Passage w i c (.frame f) r) :
    Quiet w r.1 i := by
  cases h with
  | limited verdict silent | refused _ soft encoded verdict silent | enters verdict silent =>
    exact silent.quiet i
  | control f' act raw =>
    cases act
    rw [hf] at raw
    cases raw
  | works verdict act => exact absurd rfl (act f)
  | handed act | replies _ act | limitError _ act | limitClose act | rests act => cases act

theorem Marked.harmless {log : List (GateEntry E)} {a : ReaderAct} {why : GateRefusal}
    (h : Marked log i c) (ha : a.onFrame = true) (hpassage : Passage w i c a r)
    (hwhy : .verdict (.refused why) ∈ marksOf log i (c.frameAt a) ++ Reader.marks w r.1 i c a) :
    Harmless w r.1 i r.2 why (Reader.marks w r.1 i c a) := by
  by_cases hframe : ∃ f, a = .frame f
  · obtain ⟨f, rfl⟩ := hframe
    rw [h.bound (c.frameAt (.frame f)) (Nat.lt_succ_self c.frames)] at hwhy
    exact harmless_frame hpassage hwhy
  · have hno : ∀ f, a ≠ .frame f := fun f ha => hframe ⟨f, ha⟩
    rw [frameAt_of_ne hno c] at hwhy
    exact harmless_step hno ha h.current hpassage hwhy

/-- What the gate keeps to, in the state `p` of a run with the log `log` and in its next step. -/
structure InboundGate (p : ServerState E) (log : List (GateEntry E)) : Prop where
  accounting : (∀ i c, p.session i = some c → c.reader.isChecking = false) →
    p.shared.app.metrics.messagesIn = handedOver log + p.shared.app.metrics.protocolErrors +
      p.shared.app.metrics.tenantRateRejected
  readQuietly : ∀ i c f (p' : ServerState E), p.session i = some c → f.isData = true →
    (server E).next p (.run i (.reader (.frame f))) = some p' → Quiet p.shared p'.shared i
  refusedQuietly : ∀ i c a (p' : ServerState E) c' why, p.session i = some c → a.onFrame = true →
    (server E).next p (.run i (.reader a)) = some p' → p'.session i = some c' →
      .verdict (.refused why) ∈
          marksOf (log ++ gateLog p (.run i (.reader a)) p') i (c.frameAt a) →
        Harmless p.shared p'.shared i c' why
          (marksOf (gateLog p (.run i (.reader a)) p') i (c.frameAt a))
  answeredOnce : ∀ i c n why, p.session i = some c → .verdict (.refused why) ∈ marksOf log i n →
    (c.frames = n → c.reader.hasFrame = false) → Settled why (marksOf log i n)
  rateIsLast : ∀ i c n, p.session i = some c → .verdict (.refused .rate) ∈ marksOf log i n →
    c.frames = n ∧ c.reader.isOverRate = true

theorem Marked.frame_cases {log : List (GateEntry E)} (h : Marked log i c) {why : GateRefusal}
    (hwhy : .verdict (.refused why) ∈ marksOf log i n) : n < c.frames ∨ n = c.frames := by
  rcases Nat.lt_or_ge c.frames n with hlt | hle
  · rw [h.bound n hlt] at hwhy
    cases hwhy
  · exact Nat.lt_or_eq_of_le hle

/-- The step of a reader in the run of the server. -/
theorem reader_run {p' : ServerState E} {a : ReaderAct} (hc : p.session i = some c)
    (hs : (server E).next p (.run i (.reader a)) = some p') :
    ∃ r, Reader.step p.shared i c a = some r ∧ p'.shared = r.1 ∧ p'.session i = some r.2 := by
  obtain ⟨l, w', l', hl, (hstep : Task.step p.shared i l _ = some (w', l')), rfl⟩ := Prog.next_run hs
  obtain rfl : l = .ws c := by
    rw [session_eq_some.mp hc] at hl
    exact (Option.some.inj hl).symm
  obtain ⟨c', rfl, hsession⟩ := step_ws hstep
  refine ⟨(w', c'), hsession, rfl, session_eq_some.mpr ?_⟩
  exact List.getElem?_set_self (List.getElem?_eq_some_iff.mp hl).1

/-- Every frame that comes in is handed over or counted as refused, and a refused frame changes nothing
    but the own queue: it is answered with one error there or counted as dropped. -/
theorem inbound_gate (hencode : ∀ event, (encodeServerEvent (E := E) event).isSome = true)
    {log : List (GateEntry E)} (h : LogReach (server E).next gateLog always (boot E config) (p, log)) :
    InboundGate p log where
  accounting hfree := by
    have hbalance := (gates_run hencode h).balance
    rw [count_eq_zero hfree] at hbalance
    simp only [World.intake] at hbalance
    omega
  readQuietly i c f p' hc hf hs := by
    obtain ⟨r, hstep, hworld, -⟩ := reader_run hc hs
    rw [hworld]
    exact quiet_frame hf (reader_passage hencode hstep)
  refusedQuietly i c a p' c' why hc ha hs hc' hwhy := by
    obtain ⟨r, hstep, hworld, hnow⟩ := reader_run hc hs
    obtain rfl : r.2 = c' := Option.some.inj (hnow.symm.trans hc')
    have hmarks : marksOf (gateLog p (.run i (.reader a)) p') i (c.frameAt a) =
        Reader.marks p.shared r.1 i c a := by
      rw [gateLog_reader hc, marksOf_map, if_pos ⟨rfl, rfl⟩, hworld]
    rw [marksOf_append, hmarks] at hwhy
    rw [hmarks, hworld]
    exact ((gates_run hencode h).marked i c hc).harmless ha (reader_passage hencode hstep) hwhy
  answeredOnce i c n why hc hwhy hover := by
    have hmarked := (gates_run hencode h).marked i c hc
    rcases hmarked.frame_cases hwhy with hlt | rfl
    · exact (hmarked.past n hlt why hwhy).2
    · exact settled_of_course hmarked.current (hover rfl) hwhy
  rateIsLast i c n hc hrate := by
    have hmarked := (gates_run hencode h).marked i c hc
    rcases hmarked.frame_cases hrate with hlt | rfl
    · exact absurd rfl (hmarked.past n hlt _ hrate).1
    · exact ⟨rfl, isOverRate_of_course hmarked.current hrate⟩

/-- A frame that is no JSON, and its answer. -/
def notJson : List (ServerAct Ext.plain) :=
  subscriberReady ++ steps 0 [.reader (.frame (.text "hello")), .reader .tenantRate, .reader .reply]

theorem inbound_gate_notJson : ∃ (p : ServerState Ext.plain) (log : List (GateEntry Ext.plain)),
    LogReach (server Ext.plain).next gateLog always (boot Ext.plain Config.plain) (p, log) ∧
      (marksOf log 0 1).length = 2 ∧ p.shared.app.metrics.protocolErrors = 1 ∧ InboundGate p log := by
  obtain ⟨p, log, h, hc⟩ := exec_log_check (server Ext.plain).next gateLog (fun _ _ => true)
    (boot Ext.plain Config.plain) notJson
    (fun p log => decide ((marksOf log 0 1).length = 2 ∧ p.shared.app.metrics.protocolErrors = 1))
    (by decide +kernel)
  obtain ⟨hmarks, herrors⟩ := of_decide_eq_true hc
  have hrun := h.mono fun _ _ _ => trivial
  exact ⟨p, log, hrun, hmarks, herrors, inbound_gate (fun _ => rfl) hrun⟩

end WsServer
