import WsServer.Gate
import WsServer.Lib.Lockstep

/-! The two inbound formats. A text and a binary frame that are the same event differ in the server only
    as long as the frame is in the gate: every step of every task does the same on both sides, and the
    step that hands the event over makes the states equal. The text has to pass its size check first. -/

namespace WsServer

open Lib

variable {E : Ext} {w : World E} {i : ℕ} {c d : Session E} {p q : ServerState E}

/-- The same, up to the format of a frame in the gate. -/
inductive ReaderPc.Alike : ReaderPc E → ReaderPc E → Prop
  | refl (pc : ReaderPc E) : Alike pc pc
  | checking {f g : Inbound} {event : ClientEvent E.Value} (hf : f.event E = some event)
      (hg : g.event E = some event) : Alike (.checking f) (.checking g)

/-- Connections that differ at most in the format of a frame in the gate. -/
def Session.Alike (c d : Session E) : Prop :=
  ∃ pc, c.reader.Alike pc ∧ d = { c with reader := pc }

theorem Session.Alike.refl (c : Session E) : c.Alike c := ⟨c.reader, .refl _, rfl⟩

inductive Task.Alike : Task E → Task E → Prop
  | refl (l : Task E) : Alike l l
  | ws {c d : Session E} (h : c.Alike d) : Alike (.ws c) (.ws d)

/-! ### Every task -/

theorem rel_ite {α β : Type*} {R : α → β → Prop} {P : Prop} [Decidable P] {x : Option α} {x' : Option β}
    (h : Option.Rel R x x') : Option.Rel R (if P then x else none) (if P then x' else none) := by
  split
  · exact h
  · exact .none

section
variable {f g : Inbound} {event : ClientEvent E.Value} (hf : f.event E = some event)
  (hg : g.event E = some event) (hc : c.reader = .checking f)
include hf hg hc

/-- The outcomes of a step that does not touch the reader. -/
theorem rel_reader (v : World E) (c' : Session E) (hr : c'.reader = c.reader) :
    Option.Rel (Outcome Session.Alike) (some (v, c')) (some (v, { c' with reader := .checking g })) :=
  .some ⟨rfl, .checking g, by rw [hr, hc]; exact .checking hf hg, rfl⟩

theorem handshake_alike (a : HandshakeAct) : Option.Rel (Outcome Session.Alike) (Handshake.step w c a)
    (Handshake.step w { c with reader := .checking g } a) := by
  have same := rel_reader hf hg hc
  cases a with
  | ipAdmission order =>
    refine rel_ite ?_
    simp only [Handshake.ipAdmission]
    split
    · exact same _ { c with stage := .ipAdmitted } rfl
    · refine rel_ite ?_
      split
      · exact same _ { c with stage := .ipAdmitted, ipPermit := true } rfl
      · exact same _ { c with stage := .refusing _ } rfl
  | globalPermit =>
    refine rel_ite ?_
    simp only [Handshake.globalPermit]
    split
    · exact same _ { c with stage := .permitted, permit := true } rfl
    · exact same _ { c with stage := .counted .full } rfl
  | authenticate =>
    refine rel_ite ?_
    simp only [Handshake.authenticate]
    split
    · exact same _ { c with stage := .authenticated, identity := _ } rfl
    · exact same _ { c with stage := .refusing _ } rfl
  | tenantPermit =>
    refine rel_ite ?_
    simp only [Handshake.tenantPermit]
    split
    · exact same _ { c with stage := .admitted } rfl
    · exact same _ { c with stage := .admitted, tenantPermit := true } rfl
    · exact same _ { c with stage := .refusing .tenant } rfl
  | upgrade succeeds => exact rel_ite (same _ { c with stage := _ } rfl)
  | countKind =>
    simp only [Handshake.step]
    split
    · exact same _ { c with stage := .counted _ } rfl
    · exact .none
  | countRejected =>
    simp only [Handshake.step]
    split
    · exact same _ { c with stage := .refused _ } rfl
    · exact .none
  | dropIp => exact rel_ite (same _ { c with ipPermit := false } rfl)
  | dropGlobal => exact rel_ite (same _ { c with permit := false } rfl)
  | dropTenant => exact rel_ite (same _ { c with tenantPermit := false } rfl)

theorem setup_alike (a : SetupAct) : Option.Rel (Outcome Session.Alike) (Setup.step w i c a)
    (Setup.step w i { c with reader := .checking g } a) := by
  have same := rel_reader hf hg hc
  cases a with
  | accept => exact rel_ite (same _ { c with stage := .accepted, topicKey := _ } rfl)
  | openQueue =>
    refine rel_ite ?_
    simp only [Setup.openQueue]
    split
    · exact same _ { c with stage := .panicked } rfl
    · exact same _ { c with stage := .opened } rfl
  | locate =>
    refine rel_ite ?_
    simp only [Setup.locate]
    split
    · exact same _ { c with stage := .located, chan := _ } rfl
    · exact same _ { c with stage := .panicked } rfl
  | subscribe => exact rel_ite (same _ { c with stage := .subscribed, subMark := _ } rfl)
  | number => exact rel_ite (same _ { c with stage := .numbered, connectionId := _ } rfl)
  | register => exact rel_ite (same _ { c with stage := .registered } rfl)
  | ready =>
    refine rel_ite ?_
    simp only [Setup.ready]
    split
    · exact same _ { c with stage := .readied } rfl
    · exact same _ { c with stage := .returned false } rfl
  | spawnWriter => exact rel_ite (same _ { c with stage := .writerSpawned, writer := .spawned } rfl)
  | spawnFanout => exact rel_ite (same _ { c with stage := .fanoutSpawned, fanout := .waiting } rfl)
  | spawnReader => exact rel_ite (.some ⟨rfl, Session.Alike.refl _⟩)

theorem writer_alike (a : WriterAct) : Option.Rel (Outcome Session.Alike) (Writer.step w i c a)
    (Writer.step w i { c with reader := .checking g } a) := by
  have same := rel_reader hf hg hc
  cases a with
  | start =>
    simp only [Writer.step, Writer.start]
    split
    · split
      · exact same _ { c with writer := .failed } rfl
      · exact same _ { c with writer := .idle, nextBeat := _ } rfl
    · exact .none
  | beat =>
    simp only [Writer.step]
    split
    · exact rel_ite (same _ { c with writer := .pinging, nextBeat := _ } rfl)
    · exact .none
  | pinged succeeds =>
    simp only [Writer.step, Writer.pinged]
    split
    · split
      · exact same _ { c with writer := .idle } rfl
      · exact same _ { c with writer := .failed } rfl
    · exact .none
  | pop =>
    simp only [Writer.step]
    split
    · cases (w.queues i).recv with
      | none => exact .none
      | some r => exact same _ { c with writer := .writing r.1 } rfl
    · exact .none
  | wrote succeeds =>
    simp only [Writer.step, Writer.wrote]
    split
    · split
      · exact same _ { c with writer := .idle, written := _ } rfl
      · exact same _ { c with writer := .failed } rfl
    · exact .none

theorem fanout_alike (a : FanoutAct) : Option.Rel (Outcome Session.Alike) (Fanout.step w i c a)
    (Fanout.step w i { c with reader := .checking g } a) := by
  have same := rel_reader hf hg hc
  cases a with
  | recv =>
    simp only [Fanout.step, Fanout.recv]
    split
    · split
      · exact .none
      · split
        · exact .none
        · exact same _ { c with fanout := .holding _, passed := _ } rfl
        · exact same _ { c with passed := _ } rfl
    · exact .none
  | forward =>
    simp only [Fanout.step, Fanout.forward]
    split
    · split
      · exact same _ { c with fanout := .waiting } rfl
      · exact same _ { c with fanout := .stopped _ } rfl
    · exact .none

/-- The supervisor waits until the frame is done with. -/
theorem supervise_alike (a : SuperviseAct) : Option.Rel (Outcome Session.Alike) (Supervise.step w i c a)
    (Supervise.step w i { c with reader := .checking g } a) := by
  have same := rel_reader hf hg hc
  have hended : ∀ t, ({ c with reader := .checking g } : Session E).hasEnded t = c.hasEnded t := by
    intro t
    cases t <;> simp only [Session.hasEnded, hc]
  have hcancelled : ∀ t,
      ({ c with reader := .checking g } : Session E).isCancelled t = c.isCancelled t := by
    intro t
    cases t <;> simp only [Session.isCancelled, hc]
  cases a with
  | select t =>
    simp only [Supervise.step, hended]
    exact rel_ite (same _ { c with stage := .selected t } rfl)
  | cancel t =>
    simp only [Supervise.step]
    split
    · refine rel_ite ?_
      cases t with
      | reader =>
        simp only [Supervise.cancel, hc]
        exact .none
      | writer =>
        simp only [Supervise.cancel]
        split
        · exact same _ { c with writer := .cancelled } rfl
        · exact same _ { c with writer := .cancelled } rfl
        · exact same _ { c with writer := .cancelled } rfl
        · exact same _ { c with writer := .cancelled } rfl
        · exact .none
      | fanout =>
        simp only [Supervise.cancel]
        split
        · exact same _ { c with fanout := .cancelled } rfl
        · exact .none
    · exact .none
  | join =>
    simp only [Supervise.step, hended, hcancelled]
    split
    · exact rel_ite (same _ { c with stage := .joined } rfl)
    · exact .none
  | unregisterGet => exact rel_ite (same _ { c with stage := .matched _ } rfl)
  | unregisterRemove =>
    simp only [Supervise.step, Supervise.unregisterRemove]
    split
    · exact same _ { c with stage := .returned true } rfl
    · exact .none
  | close =>
    simp only [Supervise.step]
    split
    · exact same _ { c with stage := .closed _ } rfl
    · exact .none

end

/-! ### The reader -/

/-- From here on only the event counts. -/
theorem handle_eq {f : Inbound} {event : ClientEvent E.Value} (hf : f.event E = some event) (w : World E)
    (c : Session E) : Reader.handle w c f = Reader.handleClientEvent w c event := by
  cases f with
  | text raw =>
    simp only [Inbound.event] at hf
    simp only [Reader.handle, hf]
  | binary raw =>
    simp only [Inbound.event] at hf
    simp only [Reader.handle, hf]

theorem handleClientEvent_reader (w : World E) (c : Session E) (pc : ReaderPc E)
    (event : ClientEvent E.Value) :
    Reader.handleClientEvent w { c with reader := pc } event = Reader.handleClientEvent w c event := by
  cases event <;> rfl

/-- The step that takes a frame out of the gate makes the connections equal. -/
theorem tenantRate_eq {f g : Inbound} {event : ClientEvent E.Value} (hf : f.event E = some event)
    (hg : g.event E = some event) (w : World E) (c : Session E) (pc : ReaderPc E) :
    Reader.tenantRate w { c with reader := pc } g = Reader.tenantRate w c f := by
  simp only [Reader.tenantRate, handle_eq hf, handle_eq hg, handleClientEvent_reader]
  rfl

theorem reader_alike {f g : Inbound} {event : ClientEvent E.Value} (hf : f.event E = some event)
    (hg : g.event E = some event) (hc : c.reader = .checking f) (a : ReaderAct) :
    Option.Rel (Outcome Session.Alike) (Reader.step w i c a)
      (Reader.step w i { c with reader := .checking g } a) := by
  cases a with
  | tenantRate =>
    simp only [Reader.step, hc, tenantRate_eq hf hg]
    exact .some ⟨rfl, Session.Alike.refl _⟩
  | start | frame f | locate | send | direct | reply | limitError | limitClose | idleTimeout =>
    simp only [Reader.step, hc]
    exact .none

/-! ### The server -/

theorem session_alike (h : c.Alike d) (a : TaskAct) :
    Option.Rel (Outcome Session.Alike) (Session.step w i c a) (Session.step w i d a) := by
  obtain ⟨pc, hpc, rfl⟩ := h
  generalize hc : c.reader = old at hpc
  cases hpc with
  | refl =>
    subst hc
    rcases Session.step w i c a with _ | r
    · exact .none
    · exact .some ⟨rfl, Session.Alike.refl r.2⟩
  | checking hf hg =>
    cases a with
    | handshake b => exact handshake_alike hf hg hc b
    | setup b => exact setup_alike hf hg hc b
    | writer b => exact writer_alike hf hg hc b
    | fanout b => exact fanout_alike hf hg hc b
    | reader b => exact reader_alike hf hg hc b
    | supervise b => exact supervise_alike hf hg hc b
    | call b => exact .none

theorem rel_ws {o o' : Option (World E × Session E)} (h : Option.Rel (Outcome Session.Alike) o o') :
    Option.Rel (Outcome Task.Alike) (o.map fun r => (r.1, .ws r.2)) (o'.map fun r => (r.1, .ws r.2)) := by
  cases h with
  | none => exact .none
  | some h => exact .some ⟨h.1, .ws h.2⟩

theorem task_alike {l m : Task E} (h : l.Alike m) (a : TaskAct) :
    Option.Rel (Outcome Task.Alike) (Task.step w i l a) (Task.step w i m a) := by
  cases h with
  | refl =>
    rcases Task.step w i l a with _ | r
    · exact .none
    · exact .some ⟨rfl, .refl r.2⟩
  | ws h => exact rel_ws (session_alike h a)

/-- States that agree but for the format of a frame in the gate of connection `i`, and altogether when
    there is none. -/
structure SameFrom (i : ℕ) (p q : ServerState E) : Prop where
  alike : p.AlikeAt Task.Alike i q
  equal : (∀ c, p.session i = some c → c.reader.isChecking = false) → p = q

theorem sameFrom_of_alike (h : p.AlikeAt Task.Alike i q) : SameFrom i p q := by
  refine ⟨h, fun hfree => ?_⟩
  rcases h with rfl | ⟨l, m, hl, hlm, rfl⟩
  · rfl
  · have hself : m = l → p = ⟨p.shared, p.threads.set i m⟩ := by
      rintro rfl
      obtain ⟨hlt, hget⟩ := List.getElem?_eq_some_iff.mp hl
      rw [← hget, List.set_getElem_self hlt]
    cases hlm with
    | refl => exact hself rfl
    | ws h =>
      obtain ⟨pc, hpc, rfl⟩ := h
      have hnot := hfree _ (session_eq_some.mpr hl)
      generalize hc : Session.reader _ = old at hpc hnot
      cases hpc with
      | refl =>
        subst hc
        exact hself rfl
      | checking => cases hnot

/-- Whatever happens after it, a frame `f` that connection `i` sends does what `g` would do. -/
def Interchangeable (p : ServerState E) (i : ℕ) (f g : Frame) : Prop :=
  ∀ acts : List (ServerAct E), Option.Rel (SameFrom i)
    (exec (server E).next (fun _ _ => true) p (.run i (.reader (.frame f)) :: acts))
    (exec (server E).next (fun _ _ => true) p (.run i (.reader (.frame g)) :: acts))

/-- A text is no longer than a text may be, or over the rate of the connection anyway. -/
def ServerState.Fits (p : ServerState E) (i : ℕ) (text : String) : Prop :=
  ∀ c, p.session i = some c → c.reader = .idle →
    text.utf8ByteSize ≤ p.shared.app.config.maxTextBytes ∨ (c.limiter.allow p.shared.now).1 = false

/-- The step that reads the frame. -/
theorem frame_alike {x : String} {y : List UInt8} {event : ClientEvent E.Value}
    (hx : parseClientEventText x = some event) (hy : parseClientEventBinary y = some event)
    (hfits : c.reader = .idle →
      x.utf8ByteSize ≤ w.app.config.maxTextBytes ∨ (c.limiter.allow w.now).1 = false) :
    Option.Rel (Outcome Session.Alike) (Reader.step w i c (.frame (.text x)))
      (Reader.step w i c (.frame (.binary y))) := by
  simp only [Reader.step]
  split
  · rename_i hidle
    refine .some ?_
    simp only [Reader.frame, Reader.gate]
    split
    · exact ⟨rfl, Session.Alike.refl _⟩
    · rename_i hallowed
      have hsmall : ¬ w.app.config.maxTextBytes < x.utf8ByteSize := by
        rcases hfits hidle with hle | hrate
        · exact not_lt.mpr hle
        · exact absurd (show (!(c.limiter.allow w.now).1) = true by rw [hrate]; rfl) hallowed
      rw [if_neg (by simpa using hsmall), if_neg Bool.false_ne_true]
      exact ⟨rfl, .checking (.binary y), .checking hx hy, rfl⟩
  · exact .none

theorem interchangeable_of_fits {x : String} {y : List UInt8} {event : ClientEvent E.Value}
    (hx : parseClientEventText x = some event) (hy : parseClientEventBinary y = some event)
    (hfits : p.Fits i x) : Interchangeable p i (.text x) (.binary y) := by
  intro acts
  have hrel : Option.Rel (Pool.AlikeAt Task.Alike i)
      (exec (server E).next (fun _ _ => true) p (.run i (.reader (.frame (.text x))) :: acts))
      (exec (server E).next (fun _ _ => true) p (.run i (.reader (.frame (.binary y))) :: acts)) := by
    refine exec_cons_lockstep rfl (Prog.run_lockstep fun l hl => ?_) fun _ _ hst =>
      exec_lockstep (fun _ _ _ _ => rfl)
        (fun _ _ a h => Prog.next_lockstep (fun _ _ _ b hlm => task_alike hlm b) h a) hst
    rcases l with c | d
    · exact rel_ws (frame_alike hx hy (hfits c (session_eq_some.mpr hl)))
    · exact .none
  generalize exec (server E).next _ p _ = o at hrel
  generalize exec (server E).next _ p _ = o' at hrel
  cases hrel with
  | none => exact .none
  | some h => exact .some (sameFrom_of_alike h)

theorem next_reader {a : ReaderAct} {r : World E × Session E} (hc : p.session i = some c)
    (hs : Reader.step p.shared i c a = some r) :
    (server E).next p (.run i (.reader a)) = some ⟨r.1, p.threads.set i (.ws r.2)⟩ := by
  have hstep : Task.step p.shared i (.ws c) (.reader a) = some (r.1, .ws r.2) := by
    simp only [Task.step, Session.step, hs, Option.map_some]
  simp only [Prog.next, session_eq_some.mp hc, Option.bind_some, server, hstep, Option.map_some]

theorem shared_of_alike (h : p.AlikeAt Task.Alike i q) : p.shared = q.shared := by
  rcases h with rfl | ⟨l, m, -, -, rfl⟩
  · rfl
  · rfl

/-- A longer text is counted as a protocol error. -/
theorem fits_of_interchangeable {x : String} {y : List UInt8}
    (h : Interchangeable p i (.text x) (.binary y)) : p.Fits i x := by
  intro c hc hidle
  by_contra hlong
  rw [not_or, not_le, Bool.not_eq_false] at hlong
  obtain ⟨hsize, hallowed⟩ := hlong
  have htext : ∃ r, Reader.step p.shared i c (.frame (.text x)) = some r ∧
      r.1 = (p.shared.withMetrics Metrics.messageIn).withMetrics Metrics.protocolError := by
    simp only [Reader.step, hidle]
    exact ⟨_, rfl, by simp [Reader.frame, Reader.gate, hallowed, hsize]⟩
  have hbinary : ∃ r, Reader.step p.shared i c (.frame (.binary y)) = some r ∧
      r.1 = p.shared.withMetrics Metrics.messageIn := by
    simp only [Reader.step, hidle]
    exact ⟨_, rfl, by simp [Reader.frame, Reader.gate, hallowed]⟩
  obtain ⟨r, hr, hworld⟩ := htext
  obtain ⟨t, ht, hworld'⟩ := hbinary
  have hrel := h []
  simp only [exec, ↓reduceIte, next_reader hc hr, next_reader hc ht, Option.bind_some] at hrel
  cases hrel with
  | some hsame =>
    have hshared : r.1 = t.1 := shared_of_alike hsame.alike
    rw [hworld, hworld'] at hshared
    have herrors := congrArg (fun w => w.app.metrics.protocolErrors) hshared
    exact absurd herrors (Nat.succ_ne_self _)

/-- A text frame and a binary frame that are the same event lead to the same state, replies and decision
    whatever happens after them, exactly if the text fits. -/
theorem interchangeable_iff {x : String} {y : List UInt8} {event : ClientEvent E.Value}
    (hx : parseClientEventText x = some event) (hy : parseClientEventBinary y = some event) :
    Interchangeable p i (.text x) (.binary y) ↔ p.Fits i x :=
  ⟨fits_of_interchangeable, interchangeable_of_fits hx hy⟩

/-- One publish, as JSON. -/
def hiText : String := "\x7b\"kind\":\"publish\",\"payload\":\"hi\"\x7d"

/-- The same as MessagePack: a map of two entries. -/
def hiBinary : List UInt8 :=
  [0x82, 0xa4, 0x6b, 0x69, 0x6e, 0x64, 0xa7, 0x70, 0x75, 0x62, 0x6c, 0x69, 0x73, 0x68,
    0xa7, 0x70, 0x61, 0x79, 0x6c, 0x6f, 0x61, 0x64, 0xa2, 0x68, 0x69]

/-- Parsers that know one event, in both formats. -/
def Ext.twoFormats : Ext :=
  { Ext.plain with
    fromSlice := fun raw => if raw = hiBinary then some (.publish none none "hi") else none }

/-- A connection whose reader waits for its first frame. -/
def readerWaits : List (ServerAct Ext.twoFormats) :=
  .spawn (.ws (.v4 1) ⟨"public", none, none, none⟩) ::
    steps 0 (handshakeSteps ++ registerSteps ++ spawnSteps)

theorem interchangeable_hi : ∃ p : ServerState Ext.twoFormats, Runs Config.plain always p ∧
    (p.session 0).isSome = true ∧ Interchangeable p 0 (.text hiText) (.binary hiBinary) := by
  obtain ⟨p, hp, hc⟩ := play_check Config.plain (fun _ _ => true) readerWaits
    (fun p => (p.session 0).isSome && decide (hiText.utf8ByteSize ≤ p.shared.app.config.maxTextBytes))
    (by decide +kernel)
  rw [Bool.and_eq_true, decide_eq_true_eq] at hc
  exact ⟨p, hp.toAlways, hc.1, (interchangeable_iff rfl rfl).mpr fun _ _ _ => Or.inl hc.2⟩

/-- Texts of at most 32 bytes. -/
def Config.shortText : Config := { Config.plain with maxTextBytes := 32 }

/-- The connection waits for a frame, and is not over its rate. -/
def Session.takesFrame (c : Session E) (now : ℕ) : Bool :=
  (match c.reader with
    | .idle => true
    | _ => false) && (c.limiter.allow now).1

theorem takesFrame_spec {now : ℕ} (h : c.takesFrame now = true) :
    c.reader = .idle ∧ (c.limiter.allow now).1 = true := by
  obtain ⟨hidle, hallowed⟩ := (Bool.and_eq_true _ _).mp h
  refine ⟨?_, hallowed⟩
  split at hidle
  · assumption
  · cases hidle

/-- The event passes as MessagePack, and is too long as JSON. -/
theorem not_interchangeable : ¬ ∀ (p : ServerState Ext.twoFormats) (i : ℕ) (x : String) (y : List UInt8)
    (event : ClientEvent Ext.twoFormats.Value), Runs Config.shortText always p →
      parseClientEventText x = some event → parseClientEventBinary y = some event →
        Interchangeable p i (.text x) (.binary y) := by
  intro hall
  obtain ⟨p, hp, hc⟩ := play_check Config.shortText (fun _ _ => true) readerWaits
    (fun p => decide (p.shared.app.config.maxTextBytes < hiText.utf8ByteSize) &&
      (p.session 0).any fun c => c.takesFrame p.shared.now) (by decide +kernel)
  rw [Bool.and_eq_true, decide_eq_true_eq] at hc
  obtain ⟨c, hsession, htakes⟩ := (Option.any_eq_true _ _).mp hc.2
  obtain ⟨hidle, hallowed⟩ := takesFrame_spec htakes
  rcases fits_of_interchangeable (hall p 0 hiText hiBinary _ hp.toAlways rfl rfl) c hsession hidle with
    hle | hrate
  · exact absurd hc.1 (not_lt.mpr hle)
  · rw [hallowed] at hrate
    cases hrate

end WsServer
