import WsServer.Registry
import WsServer.Turns
import WsServer.Wiring

/-! Delivery over topics. A publish in hand is aimed at the channel of its key, so every publish on a
    key is sent on the one channel of the key. From there on a subscriber's cursor tells the whole
    story: what it has passed, received or reported as lagged, followed by what is still pending, is
    exactly the list of publishes on its key since it subscribed. -/

namespace WsServer

open Lib

variable {E : Ext} {w : World E} {i : ℕ} {c : Session E} {r : World E × Session E}

/-! ### Publications are aimed right -/

/-- Key and channel of the publish that a task is about to send. -/
def Task.aims : Task E → Option (String × ℕ)
  | .ws c =>
    match c.reader with
    | .sending topicKey ch _ => some (topicKey, ch)
    | _ => none
  | .http c =>
    match c.pc with
    | .sending topicKey ch _ => some (topicKey, ch)
    | _ => none

def Aimed (g : Wiring E) (l : Task E) : Prop :=
  ∀ key ch, l.aims = some (key, ch) → g.keyOf ch = some key

theorem aims_of_publication {l : Task E} {ch : ℕ} {p : Publish E}
    (h : l.publication i = some (ch, p)) : l.aims = some (p.key, ch) := by
  cases l with
  | ws c =>
    simp only [Task.publication] at h
    split at h <;> cases h
    simp [Task.aims, *]
  | http d =>
    simp only [Task.publication] at h
    split at h <;> cases h
    simp [Task.aims, *]

/-- Channels keep their keys. -/
theorem keyOf_step {g g' : Wiring E} {pub : Option (ℕ × Publish E)}
    (h : TopicStep g pub g' ∨ RxStep g i g') {ch : ℕ} {key : String} (hk : g.keyOf ch = some key) :
    g'.keyOf ch = some key := by
  rcases h with h | h
  · cases h with
    | same e => rw [e]; exact hk
    | created k cap new e =>
      have hlt := Wiring.keyOf_lt hk
      rw [e, Wiring.keyOf_create, if_neg (by omega)]; exact hk
    | published ch' p aim e => rw [e, Wiring.keyOf_publish]; exact hk
  · cases h with
    | moved ch' f e others => rw [e, Wiring.keyOf_onChannel]; exact hk

theorem inverse_step {g g' : Wiring E} {pub : Option (ℕ × Publish E)}
    (h : TopicStep g pub g' ∨ RxStep g i g') (hg : g.Inverse) : g'.Inverse := by
  rcases h with h | h
  · cases h with
    | same e => rw [e]; exact hg
    | created k cap new e => rw [e]; exact hg.create new cap
    | published ch p aim e => rw [e]; exact hg.publish ch p
  · cases h with
    | moved ch f e others => rw [e]; exact hg.onChannel ch f

/-- The channel found for a key is the channel of the key. -/
theorem keyOf_topicSender {key : String} {s : ℕ × World E} (hg : w.wiring.Inverse)
    (h : w.topicSender key = some s) : s.2.wiring.keyOf s.1 = some key := by
  rcases wiring_topicSender h with ⟨hl, he⟩ | ⟨-, hch, cap, he⟩
  · rw [he]; exact (hg key s.1).mp hl
  · rw [he, hch, Wiring.keyOf_create, if_pos rfl]

theorem reader_aimed {a : ReaderAct} (hg : w.wiring.Inverse) (h : Reader.step w i c a = some r) :
    Aimed r.1.wiring (.ws r.2) := by
  rintro key ch haim
  have hturn := reader_turn h
  simp only [Task.aims] at haim
  generalize r.2.reader = pc at hturn haim
  cases hturn with
  | empty hnone => split at haim <;> cases haim; cases hnone
  | @written hand hw => cases hand <;> cases haim
  | located hr hs => cases haim; exact keyOf_topicSender hg hs

theorem api_aimed {d : Call E} {s : World E × Call E} {a : CallAct} (hg : w.wiring.Inverse)
    (h : Api.step w i d a = some s) : Aimed s.1.wiring (.http s.2) := by
  rintro key ch haim
  have hturn := call_turn h
  simp only [Task.aims] at haim
  generalize s.2 = d' at hturn haim
  cases hturn with
  | empty hnone => split at haim <;> cases haim; simp [CallPc.hand, *] at hnone
  | published hw => cases haim
  | directed hw => cases haim
  | located hp hs => cases haim; exact keyOf_topicSender hg hs

/-- What the other tasks of a connection do to its reader. -/
theorem session_reader {a : TaskAct} (h : Session.step w i c a = some r)
    (ha : ∀ b, a ≠ .reader b) :
    r.2.reader = c.reader ∨ r.2.reader = .spawned ∨ r.2.reader = .cancelled := by
  cases a with
  | handshake b => exact Or.inl (Handshake.step_framed h).reader
  | writer b => exact Or.inl (Writer.step_framed h).reader
  | fanout b => exact Or.inl (Fanout.step_framed h).reader
  | reader b => exact absurd rfl (ha b)
  | setup b => exact (setup_tasks h).2.2.imp_right Or.inl
  | supervise b => exact (supervise_tasks h).2.2.imp_right Or.inr
  | call b => cases h

/-- The topic table and the channels stay inverse, and every publish in hand is aimed right. -/
theorem wired_run {config : Config} {ok : ServerState E → ServerAct E → Prop}
    {p : ServerState E} (h : Runs config ok p) :
    Holds (fun _ w => w.wiring.Inverse) (fun w _ l => Aimed w.wiring l) p := by
  refine Prog.rely_guarantee ?_ ?_ ?_ ?_ ?_ h
  · -- boot
    refine ⟨fun key ch => ?_, fun i l hl => by simp [boot] at hl⟩
    simp [boot, World.init, World.wiring, AppState.new, Wiring.keyOf]
  · -- start
    rintro p request - hI
    refine ⟨hI.shared, fun key ch haim => ?_⟩
    cases request <;> cases haim
  · -- own
    rintro p i l a w' l' - hI - hl (hs : Task.step p.shared i l a = some (w', l'))
    refine ⟨inverse_step (task_wiring hs) hI.shared, ?_⟩
    cases l with
    | http d =>
      obtain ⟨d', b, rfl, rfl, hstep⟩ := step_http hs
      exact api_aimed hI.shared hstep
    | ws c =>
      obtain ⟨c', rfl, hstep⟩ := step_ws hs
      by_cases hread : ∃ b, a = .reader b
      · obtain ⟨b, rfl⟩ := hread
        exact reader_aimed hI.shared hstep
      · rintro key ch haim
        rcases session_reader hstep (fun b e => hread ⟨b, e⟩) with he | he | he
        · rw [Task.aims, he] at haim
          exact keyOf_step (task_wiring hs) (hI.each i _ hl key ch haim)
        · rw [Task.aims, he] at haim; cases haim
        · rw [Task.aims, he] at haim; cases haim
  · -- other
    rintro p i l a w' l' j m - hI - - - hm (hs : Task.step p.shared i l a = some (w', l')) key ch haim
    exact keyOf_step (task_wiring hs) (hI.each j m hm key ch haim)
  · -- env
    rintro p e w' hI he
    cases he
    exact ⟨hI.shared, hI.each⟩

/-! ### What a subscriber has passed -/

/-- The connection has a topic receiver. -/
def Session.listens (c : Session E) : Bool :=
  match c.fanout with
  | .waiting | .holding _ => true
  | .off =>
    match c.stage with
    | .subscribed | .numbered | .registered | .readied | .writerSpawned => true
    | _ => false
  | _ => false

/-- Publish number and message of a value in a channel. -/
def Sent.message (m : Sent E) : ℕ × OutboundMessage E := (m.seq, .binary m.bytes)

/-- The message that the fanout took and has not put into the queue. -/
def Session.inHand (c : Session E) : List (ℕ × OutboundMessage E) :=
  match c.fanout with
  | .holding m | .stopped m => [m.message]
  | _ => []

/-- The topic messages ever put into a queue, with their publish numbers. -/
def forwarded (q : Queue (Item E)) : List (ℕ × OutboundMessage E) :=
  q.placed.filterMap Item.message?

/-- The cursor of a connection among the publishes on its key. -/
structure Cursor (g : Wiring E) (fwd : List (ℕ × OutboundMessage E)) (i : ℕ) (c : Session E) :
    Prop where
  key : 3 ≤ c.stage.rank → g.keyOf c.chan = some c.topicKey
  mark : c.subMark ≤ g.published.length
  live : c.listens = true → ∃ l, g.pending c.chan i = some l ∧
    g.seqsOn c.topicKey c.subMark = c.passed.map Prod.fst ++ l.map (·.seq) ∧
    ∀ m ∈ l, g.Carries m.message
  passed : c.passed.map Prod.fst <+: g.seqsOn c.topicKey c.subMark
  forwarded : (fwd ++ c.inHand).map Prod.fst = (c.passed.filter (·.2)).map Prod.fst
  carried : ∀ e ∈ fwd ++ c.inHand, g.Carries e

theorem listens_rank (hc : c.Shaped) (h : c.listens = true) : 4 ≤ c.stage.rank := by
  by_contra hlt
  have hoff := hc.fanout (by omega)
  rw [Session.listens, hoff] at h
  revert h hlt
  cases c.stage <;> simp [Stage.rank]

/-- Publishing, by whomever, keeps a cursor. -/
theorem Cursor.topic {g g' : Wiring E} {fwd : List (ℕ × OutboundMessage E)}
    {pub : Option (ℕ × Publish E)}
    (h : Cursor g fwd i c) (hc : c.Shaped) (hg : g.Inverse)
    (haim : ∀ ch p, pub = some (ch, p) → g.keyOf ch = some p.key) (hs : TopicStep g pub g') :
    Cursor g' fwd i c := by
  cases hs with
  | same e => rw [e]; exact h
  | created key cap new e =>
    subst e
    refine ⟨fun hr => ?_, h.mark, fun hl => ?_, h.passed, h.forwarded, h.carried⟩
    · have hlt := Wiring.keyOf_lt (h.key hr)
      rw [Wiring.keyOf_create, if_neg (by omega)]; exact h.key hr
    · rw [Wiring.pending_create]; exact h.live hl
  | published ch p aim e =>
    subst e
    have hseq := Wiring.seqsOn_publish g ch p c.topicKey c.subMark h.mark
    refine ⟨fun hr => ?_, ?_, fun hl => ?_, ?_, h.forwarded,
      fun e he => (h.carried e he).publish ch p⟩
    · -- key
      rw [Wiring.keyOf_publish]; exact h.key hr
    · -- mark
      exact h.mark.trans (by simp [Wiring.publish])
    · -- live
      obtain ⟨l, hp, hall, hcar⟩ := h.live hl
      have hkey := h.key (by have := listens_rank hc hl; omega)
      have hto := haim ch p aim
      rw [Wiring.pending_publish, hseq]
      by_cases hk : p.key = c.topicKey
      · -- one channel for one key
        have hch : ch = c.chan := by
          rw [hk] at hto
          exact Option.some.inj (((hg _ _).mpr hto).symm.trans ((hg _ _).mpr hkey))
        rw [if_pos hch, if_pos hk, hp]
        refine ⟨_, rfl, by rw [hall]; simp, fun m hm => ?_⟩
        rcases List.mem_append.mp hm with hm | hm
        · exact (hcar m hm).publish ch p
        · rw [List.mem_singleton] at hm
          subst hm
          exact ⟨p, by simp [Sent.message, Wiring.publish], rfl⟩
      · have hch : ch ≠ c.chan := by
          rintro rfl
          exact hk (Option.some.inj (hto.symm.trans hkey))
        rw [if_neg hch, if_neg hk, List.append_nil]
        exact ⟨l, hp, hall, fun m hm => (hcar m hm).publish ch p⟩
    · -- passed
      rw [hseq]
      exact h.passed.trans (List.prefix_append _ _)

/-- A move of another receiver keeps a cursor. -/
theorem Cursor.rx {g g' : Wiring E} {fwd : List (ℕ × OutboundMessage E)} {j : ℕ}
    (h : Cursor g fwd i c) (hne : i ≠ j)
    (hs : RxStep g j g') : Cursor g' fwd i c := by
  obtain ⟨ch, f, rfl, others⟩ := hs
  refine ⟨fun hr => ?_, h.mark, fun hl => ?_, h.passed, h.forwarded, h.carried⟩
  · rw [Wiring.keyOf_onChannel]; exact h.key hr
  · obtain ⟨l, hp, hall⟩ := h.live hl
    refine ⟨l, ?_, hall⟩
    by_cases hch : ch = c.chan
    · subst hch; rw [others i hne]; exact hp
    · rw [Wiring.pending_onChannel, if_neg hch]; exact hp

/-- Where the receiver of a connection started. -/
def Session.start (c : Session E) : String × ℕ × ℕ := (c.topicKey, c.chan, c.subMark)

theorem start_of_seat {c' : Session E} (h : c'.seat = c.seat) : c'.start = c.start :=
  congrArg (fun s : Seat => (s.topicKey, s.chan, s.subMark)) h

/-- A step that moves neither cursor nor channels keeps a cursor. -/
theorem Cursor.still {g : Wiring E} {fwd : List (ℕ × OutboundMessage E)} {c' : Session E}
    (h : Cursor g fwd i c)
    (hstart : c'.start = c.start) (hpassed : c'.passed = c.passed) (hhand : c'.inHand = c.inHand)
    (hrank : 3 ≤ c'.stage.rank → 3 ≤ c.stage.rank)
    (hlistens : c'.listens = true → c.listens = true) : Cursor g fwd i c' := by
  simp only [Session.start, Prod.mk.injEq] at hstart
  obtain ⟨hkey, hchan, hmark⟩ := hstart
  refine ⟨fun hr => ?_, ?_, fun hl => ?_, ?_, ?_, ?_⟩
  · rw [hchan, hkey]; exact h.key (hrank hr)
  · rw [hmark]; exact h.mark
  · rw [hchan, hkey, hmark, hpassed]; exact h.live (hlistens hl)
  · rw [hkey, hmark, hpassed]; exact h.passed
  · rw [hhand, hpassed]; exact h.forwarded
  · rw [hhand]; exact h.carried

/-- Without its receiver a connection passes nothing any more. -/
theorem Cursor.deaf {g g' : Wiring E} {fwd : List (ℕ × OutboundMessage E)} {c' : Session E}
    (h : Cursor g fwd i c)
    (hs : RxStep g i g') (hstart : c'.start = c.start) (hpassed : c'.passed = c.passed)
    (hhand : c'.inHand = c.inHand) (hrank : 3 ≤ c'.stage.rank → 3 ≤ c.stage.rank)
    (hlistens : c'.listens = false) : Cursor g' fwd i c' := by
  obtain ⟨ch, f, rfl, -⟩ := hs
  simp only [Session.start, Prod.mk.injEq] at hstart
  obtain ⟨hkey, hchan, hmark⟩ := hstart
  refine ⟨fun hr => ?_, ?_, fun hl => ?_, ?_, ?_, ?_⟩
  · rw [Wiring.keyOf_onChannel, hchan, hkey]; exact h.key (hrank hr)
  · rw [hmark]; exact h.mark
  · rw [hlistens] at hl; cases hl
  · rw [hkey, hmark, hpassed]; exact h.passed
  · rw [hhand, hpassed]; exact h.forwarded
  · rw [hhand]; exact h.carried

/-- A connection before `subscribe`. -/
theorem Cursor.fresh {g : Wiring E} {fwd : List (ℕ × OutboundMessage E)}
    (hmark : c.subMark ≤ g.published.length)
    (hpassed : c.passed = []) (hhand : c.inHand = []) (hfwd : fwd = [])
    (hkey : 3 ≤ c.stage.rank → g.keyOf c.chan = some c.topicKey) (hlistens : c.listens = false) :
    Cursor g fwd i c := by
  refine ⟨hkey, hmark, fun hl => ?_, ?_, ?_, ?_⟩
  · rw [hlistens] at hl; cases hl
  · rw [hpassed]; exact List.nil_prefix
  · rw [hpassed, hhand, hfwd]; rfl
  · rw [hhand, hfwd]; exact nofun

/-- Items that came over no topic do not count. -/
theorem forwarded_grew {w w' : World E} {j : ℕ} {P : Item E → Prop} (h : World.Grew w w' j P)
    (hp : ∀ x, P x → x.message? = none) : forwarded (w'.queues j) = forwarded (w.queues j) := by
  rcases h with h | ⟨x, hx, h⟩
  · rw [h]
  · obtain ⟨-, -, hq⟩ := Queue.trySend_ok h
    rw [hq, forwarded, List.filterMap_append, List.filterMap_cons, hp x hx]
    simp [forwarded]

theorem seqsOn_end (g : Wiring E) (key : String) : g.seqsOn key g.published.length = [] := by
  rw [Wiring.seqsOn, List.filter_eq_nil_iff]
  rintro s hs
  have hlt := List.mem_range.mp hs
  simp [Nat.not_le.mpr hlt]

/-- Before its fanout is spawned a connection has passed and forwarded nothing. -/
theorem Cursor.nothing {g : Wiring E} {fwd : List (ℕ × OutboundMessage E)}
    (h : Cursor g fwd i c) (hc : c.Shaped)
    (hoff : c.fanout = .off) : c.passed = [] ∧ c.inHand = [] ∧ fwd = [] := by
  have hp := hc.passed hoff
  have hh : c.inHand = [] := by rw [Session.inHand, hoff]
  have hf := h.forwarded
  rw [hp, hh, List.append_nil] at hf
  exact ⟨hp, hh, List.map_eq_nil_iff.mp hf⟩

theorem cursor_subscribe (hc : c.Shaped) (h : Cursor w.wiring (forwarded (w.queues i)) i c)
    (hst : c.stage = .located) :
    Cursor (Setup.subscribe w i c).1.wiring (forwarded ((Setup.subscribe w i c).1.queues i)) i
      (Setup.subscribe w i c).2 := by
  have hoff : c.fanout = .off := hc.fanout (by simp [hst, Stage.rank])
  obtain ⟨hp, hh, hf⟩ := h.nothing hc hoff
  have hkey : w.wiring.keyOf c.chan = some c.topicKey := h.key (by simp [hst, Stage.rank])
  have hend : (Setup.subscribe w i c).1.wiring.seqsOn c.topicKey w.wiring.published.length = [] :=
    seqsOn_end w.wiring c.topicKey
  have hkeep := Wiring.keyOf_onChannel w.wiring c.chan c.chan (·.subscribe i)
  refine ⟨fun _ => hkeep.trans hkey, Nat.le_refl _, fun _ => ⟨[], ?_, ?_, fun _ h => by cases h⟩,
    ?_, ?_, ?_⟩
  · -- pending
    rw [Wiring.keyOf, Option.map_eq_some_iff] at hkey
    obtain ⟨cl, hcl, -⟩ := hkey
    have hpend := Wiring.pending_onChannel w.wiring c.chan c.chan i (·.subscribe i)
    rw [if_pos rfl, hcl] at hpend
    refine hpend.trans ?_
    simp [Broadcast.pending_subscribe]
  · -- passed so far, and pending
    refine hend.trans ?_
    simp [Setup.subscribe, hp]
  · -- passed
    simp [Setup.subscribe, hp]
  · -- forwarded
    simp [Setup.subscribe, Session.inHand, hoff, hp, hf]
  · -- carried
    simp [Setup.subscribe, Session.inHand, hoff, hf]

theorem cursor_ready (hc : c.Shaped) (h : Cursor w.wiring (forwarded (w.queues i)) i c)
    (hst : c.stage = .registered) :
    Cursor (Setup.ready w i c).1.wiring (forwarded ((Setup.ready w i c).1.queues i)) i
      (Setup.ready w i c).2 := by
  have hoff : c.fanout = .off := hc.fanout (by simp [hst, Stage.rank])
  unfold Setup.ready
  split
  · rename_i encoded _
    have hgrew := (World.grew_trySend w i ⟨.binary encoded, .ready⟩ i).congr
      (World.queues_sendEncoded w i encoded .ready)
    rw [World.wiring_sendEncoded, forwarded_grew hgrew (by rintro x ⟨-, rfl⟩; rfl)]
    exact h.still rfl rfl rfl (by simp [hst, Stage.rank]) (by simp [Session.listens, hoff, hst])
  · have hfwd : forwarded (((w.dropRx i c.chan).closeQueue i).queues i) = forwarded (w.queues i) := by
      simp [forwarded]
    simp only [hfwd]
    exact h.deaf (rxStep_dropRx w i c.chan) rfl rfl rfl (by simp [hst, Stage.rank])
      (by simp [Session.listens, hoff])

theorem cursor_setup {a : SetupAct} (hc : c.Shaped) (hg : w.wiring.Inverse)
    (h : Cursor w.wiring (forwarded (w.queues i)) i c) (hs : Setup.step w i c a = some r) :
    Cursor r.1.wiring (forwarded (r.1.queues i)) i r.2 := by
  have hfan := hc.fanout
  cases a <;> simp only [Setup.step, Option.ite_none_right_eq_some, Option.some.injEq] at hs <;>
    obtain ⟨hst, rfl⟩ := hs <;> rw [hst] at hfan
  case accept =>
    obtain ⟨hp, hh, hf⟩ := h.nothing hc (hfan (by decide))
    exact .fresh h.mark hp hh hf (by simp [Setup.accept, Stage.rank])
      (by simp [Setup.accept, Session.listens, hfan (by decide)])
  case openQueue =>
    have hoff := hfan (by decide)
    obtain ⟨hp, hh, hf⟩ := h.nothing hc hoff
    simp only [Setup.openQueue]
    split
    · exact .fresh h.mark hp hh hf (by simp [Stage.rank]) (by simp [Session.listens, hoff])
    · exact .fresh h.mark hp hh (by simp [forwarded, Queue.new]) (by simp [Stage.rank])
        (by simp [Session.listens, hoff])
  case locate =>
    have hoff := hfan (by decide)
    obtain ⟨hp, hh, hf⟩ := h.nothing hc hoff
    unfold Setup.locate
    split
    · rename_i ch w' hl
      have hmark : c.subMark ≤ w'.wiring.published.length := by
        rcases wiring_topicSender hl with ⟨-, he⟩ | ⟨-, -, cap, he⟩ <;> rw [he] <;> exact h.mark
      refine .fresh hmark hp hh ?_ (fun _ => keyOf_topicSender hg hl)
        (by simp [Session.listens, hoff])
      rw [World.queues_topicSender hl]; exact hf
    · exact .fresh h.mark hp hh (by simpa [forwarded] using hf) (by simp [Stage.rank])
        (by simp [Session.listens, hoff])
  case subscribe => exact cursor_subscribe hc h hst
  case number | register | spawnWriter =>
    exact h.still rfl rfl rfl (by simp [hst, Stage.rank])
      (by simp [Session.listens, hst, hfan (by decide)])
  case ready => exact cursor_ready hc h hst
  case spawnFanout =>
    exact h.still rfl rfl (by simp [Session.inHand, hfan (by decide)]) (by simp [hst, Stage.rank])
      (by simp [Session.listens, hst, hfan (by decide)])
  case spawnReader =>
    refine h.still rfl rfl rfl (by simp [hst, Stage.rank]) ?_
    unfold Session.listens
    cases c.fanout <;> simp

/-- A receiver that moves on passes the first pending values. -/
theorem Cursor.advance {g : Wiring E} {fwd : List (ℕ × OutboundMessage E)} {c' : Session E}
    {cl : Channel E} {b : Broadcast (Sent E)} {l rest : List (Sent E)} (ext : List (ℕ × Bool))
    (h : Cursor g fwd i c) (hcl : g.channels[c.chan]? = some cl)
    (hall : g.seqsOn c.topicKey c.subMark = c.passed.map Prod.fst ++ l.map (·.seq))
    (hcar : ∀ m ∈ rest, g.Carries m.message)
    (hsplit : l.map (·.seq) = ext.map Prod.fst ++ rest.map (·.seq)) (hrest : b.pending i = some rest)
    (hstart : c'.start = c.start) (hstage : c'.stage = c.stage) (hpassed : c'.passed = c.passed ++ ext)
    (hhand : (fwd ++ c'.inHand).map Prod.fst = (c'.passed.filter (·.2)).map Prod.fst)
    (hcarried : ∀ e ∈ fwd ++ c'.inHand, g.Carries e) :
    Cursor (g.onChannel c.chan fun _ => b) fwd i c' := by
  simp only [Session.start, Prod.mk.injEq] at hstart
  obtain ⟨hkey, hchan, hmark⟩ := hstart
  have hall' : g.seqsOn c'.topicKey c'.subMark = c'.passed.map Prod.fst ++ rest.map (·.seq) := by
    rw [hkey, hmark, hpassed, hall, hsplit, List.map_append, List.append_assoc]
  refine ⟨fun hr => ?_, ?_, fun _ => ⟨rest, ?_, hall', hcar⟩, ?_, hhand, hcarried⟩
  · rw [Wiring.keyOf_onChannel, hchan, hkey]; exact h.key (hstage ▸ hr)
  · rw [hmark]; exact h.mark
  · rw [hchan, Wiring.pending_onChannel, if_pos rfl, hcl]; exact hrest
  · rw [show (g.onChannel c.chan fun _ => b).seqsOn _ _ = _ from hall']
    exact List.prefix_append _ _

theorem cursor_recv (h : Cursor w.wiring (forwarded (w.queues i)) i c) (hst : c.fanout = .waiting)
    (hs : Fanout.recv w i c = some r) :
    Cursor r.1.wiring (forwarded (r.1.queues i)) i r.2 := by
  have hl : c.listens = true := by rw [Session.listens, hst]
  have hfwd := h.forwarded
  have hcarried := h.carried
  rw [show c.inHand = [] by rw [Session.inHand, hst], List.append_nil] at hfwd hcarried
  obtain ⟨l, hpend, hall, hcar⟩ := h.live hl
  unfold Fanout.recv at hs
  split at hs
  · cases hs
  · rename_i cl hcl
    have hcl' : w.wiring.channels[c.chan]? = some cl := hcl
    have hp : cl.chan.pending i = some l := by rwa [Wiring.pending, hcl'] at hpend
    split at hs
    · cases hs
    · rename_i m b hrecv
      cases hs
      obtain ⟨rest, hcons, hrest⟩ := Broadcast.recv_ok hrecv
      rw [hp, Option.some.injEq] at hcons
      subst hcons
      refine Cursor.advance [(m.seq, true)] h hcl' hall
        (fun m' hm' => hcar m' (List.mem_cons_of_mem _ hm')) (by simp) hrest rfl rfl rfl ?_ ?_
      · rw [List.map_append, hfwd]
        simp [Session.inHand, Sent.message]
      · rintro e he
        rcases List.mem_append.mp he with he | he
        · exact hcarried e he
        · obtain rfl := List.mem_singleton.mp he
          exact hcar m List.mem_cons_self
    · rename_i n b hrecv
      cases hs
      obtain ⟨l', hl', -, -, hdrop⟩ := Broadcast.recv_lagged hrecv
      rw [hp, Option.some.injEq] at hl'
      subst hl'
      have htake : (cl.chan.pending i).getD [] = l := by rw [hp]; rfl
      refine Cursor.advance ((l.take n).map fun m => (m.seq, false)) h hcl' hall
        (fun m' hm' => hcar m' (List.mem_of_mem_drop hm')) ?_ hdrop rfl rfl (by simp [htake]) ?_ ?_
      · rw [List.map_map, show Prod.fst ∘ (fun m : Sent E => (m.seq, false)) = (·.seq) from rfl,
          ← List.map_append, List.take_append_drop]
      · have hnone : ((l.take n).map fun m => (m.seq, false)).filter (·.2) = [] := by
          rw [List.filter_eq_nil_iff]
          rintro e he
          obtain ⟨m, -, rfl⟩ := List.mem_map.mp he
          exact Bool.false_ne_true
        simp only [htake, List.filter_append, hnone, List.append_nil, ← hfwd]
        simp [Session.inHand, hst]
      · simpa [Session.inHand, hst] using hcarried

/-- A message that fits is forwarded; one that does not stays in hand for good. -/
theorem cursor_forward {m : Sent E} (h : Cursor w.wiring (forwarded (w.queues i)) i c)
    (hst : c.fanout = .holding m) :
    Cursor (Fanout.forward w i c m).1.wiring (forwarded ((Fanout.forward w i c m).1.queues i)) i
      (Fanout.forward w i c m).2 := by
  have hhand : c.inHand = [m.message] := by rw [Session.inHand, hst]
  have hl : c.listens = true := by rw [Session.listens, hst]
  have hwir := World.wiring_sendEncoded w i m.bytes (.topic m.seq)
  have hq := World.queues_sendEncoded w i m.bytes (.topic m.seq)
  simp only [Fanout.forward, World.sendEncoded_fst]
  rcases World.trySend_cases w i ⟨.binary m.bytes, .topic m.seq⟩ with ⟨q, hsend, ht⟩ | ⟨-, ht⟩
  · obtain ⟨-, -, hqq⟩ := Queue.trySend_ok hsend
    rw [ht] at hq
    simp only [ht, if_true, hwir, hq]
    have hfwd : forwarded (w.setQueue i q |>.queues i) =
        forwarded (w.queues i) ++ c.inHand := by
      simp [forwarded, hqq, Item.message?, hhand, Sent.message]
    rw [hfwd]
    refine ⟨h.key, h.mark, fun _ => h.live hl, h.passed, ?_, ?_⟩
    · rw [← h.forwarded]; simp [Session.inHand]
    · simpa [Session.inHand] using h.carried
  · rw [ht] at hq
    simp only [ht, Bool.false_eq_true, if_false]
    have hfwd : forwarded (((w.sendEncoded i m.bytes (.topic m.seq)).2.dropRx i c.chan).queues i) =
        forwarded (w.queues i) := by
      rw [World.queues_dropRx, hq]
    have hrx := rxStep_dropRx (w.sendEncoded i m.bytes (.topic m.seq)).2 i c.chan
    rw [hwir] at hrx
    rw [hfwd]
    exact h.deaf hrx rfl rfl (by rw [hhand]; rfl) id rfl

/-- A handshake moves no cursor. -/
theorem cursor_handshake {a : HandshakeAct} (h : Cursor w.wiring (forwarded (w.queues i)) i c)
    (hs : Handshake.step w c a = some r) :
    Cursor r.1.wiring (forwarded (r.1.queues i)) i r.2 := by
  have hf := Handshake.step_framed hs
  have hrank : 3 ≤ r.2.stage.rank → 3 ≤ c.stage.rank := by
    rcases Handshake.stage_step hs with ⟨-, hb⟩ | ⟨he, -⟩
    · rw [rank_of_isHandshake hb]; omega
    · rw [he]; exact id
  have hlisten : r.2.listens = true → c.listens = true := by
    unfold Session.listens
    rw [hf.fanout]
    rcases Handshake.stage_step hs with ⟨-, hb⟩ | ⟨he, -⟩
    · cases c.fanout <;> simp only [imp_self]
      revert hb
      cases r.2.stage <;> simp [Stage.isHandshake]
    · rw [he]; exact id
  rw [hf.wiring, hf.queues]
  exact h.still (start_of_seat hf.seat) hf.passed (by simp only [Session.inHand, hf.fanout])
    hrank hlisten

theorem cursor_writer {a : WriterAct} (h : Cursor w.wiring (forwarded (w.queues i)) i c)
    (hs : Writer.step w i c a = some r) :
    Cursor r.1.wiring (forwarded (r.1.queues i)) i r.2 := by
  have hf := Writer.step_framed hs
  rw [hf.wiring, forwarded, hf.placed]
  exact h.still (start_of_seat hf.seat) hf.passed (by simp only [Session.inHand, hf.fanout])
    (by rw [hf.stage]; exact id) (by simp only [Session.listens, hf.fanout, hf.stage]; exact id)

theorem message?_of_isOwn {x : Item E} (h : x.source.isOwn = true) : x.message? = none := by
  unfold Item.message?
  cases hx : x.source with
  | topic seq => rw [hx] at h; cases h
  | _ => rfl

/-- What a reader publishes it may receive itself; what it sends directly comes over no topic. -/
theorem cursor_reader {a : ReaderAct} (h : Cursor w.wiring (forwarded (w.queues i)) i c)
    (hc : c.Shaped) (hg : w.wiring.Inverse) (haim : Aimed w.wiring (.ws c))
    (hs : Reader.step w i c a = some r) :
    Cursor r.1.wiring (forwarded (r.1.queues i)) i r.2 := by
  have hf := Reader.step_framed hs
  have hk := hf.kept
  have hgrew : forwarded (r.1.queues i) = forwarded (w.queues i) := by
    refine forwarded_grew (hf.queues i) ?_
    rintro x (⟨-, hx⟩ | ⟨-, hx⟩)
    · exact message?_of_isOwn hx
    · simp [Item.message?, hx]
  have ht := h.topic hc hg (fun ch q hq => haim q.key ch (aims_of_publication hq))
    (reader_topicStep hs)
  rw [hgrew]
  exact ht.still (start_of_seat hk.seat) hk.passed (by simp only [Session.inHand, hk.fanout])
    (by rw [hk.stage]; exact id) (by simp only [Session.listens, hk.fanout, hk.stage]; exact id)

/-- The supervisor takes the receiver away when it cancels the fanout, and never gives one. -/
theorem cursor_supervise {a : SuperviseAct} (h : Cursor w.wiring (forwarded (w.queues i)) i c)
    (hs : Supervise.step w i c a = some r) :
    Cursor r.1.wiring (forwarded (r.1.queues i)) i r.2 := by
  have hf := Supervise.step_framed hs
  have hrank : 3 ≤ r.2.stage.rank → 3 ≤ c.stage.rank := by
    rcases supervise_rank hs with ⟨h1, -⟩ | ⟨h1, -⟩
    · omega
    · simp [h1, Stage.rank]
  rw [forwarded, hf.placed]
  rcases supervise_fanout hs with ⟨hwir, hfan⟩ | ⟨hrx, hfan, hfan'⟩
  · rw [hwir]
    refine h.still (start_of_seat hf.seat) hf.passed (by simp only [Session.inHand, hfan]) hrank ?_
    unfold Session.listens
    rw [hfan]
    cases c.fanout <;> simp only [imp_self]
    -- without a fanout only a set-up listens, and it is over
    rcases supervise_rank hs with ⟨-, h2⟩ | ⟨-, h2, -⟩
    · revert h2
      cases r.2.stage <;> simp [Stage.rank]
    · simp [h2]
  · exact h.deaf hrx (start_of_seat hf.seat) hf.passed
      (by simp only [Session.inHand, hfan, hfan']) hrank (by simp only [Session.listens, hfan'])

/-- Every connection's cursor is right in every reachable state. -/
theorem cursor_run {config : Config} {ok : ServerState E → ServerAct E → Prop}
    {p : ServerState E} (h : Runs config ok p) :
    Keeps (fun _ _ => True) (fun w i c => Cursor w.wiring (forwarded (w.queues i)) i c) p := by
  refine session_rule trivial (fun _ _ _ => trivial) ?_ ?_ (fun _ _ _ _ _ _ _ _ _ => trivial) ?_
    (fun _ _ _ _ => trivial) (fun _ _ _ _ hK => hK) h
  · -- arrive
    rintro p ip query hr -
    refine .fresh (Nat.zero_le _) rfl rfl ?_ (by simp [Session.arrive, Stage.rank]) rfl
    rw [absent_run hr le_rfl]; rfl
  · -- own
    rintro p i c a r hr hI - hc hs
    refine ⟨trivial, ?_⟩
    have hK := hI.session i c hc
    have hsh := shaped_run hr hc
    have hwired := wired_run hr
    cases a with
    | handshake b => exact cursor_handshake hK hs
    | setup b => exact cursor_setup hsh hwired.shared hK hs
    | writer b => exact cursor_writer hK hs
    | fanout b =>
      cases b with
      | recv =>
        simp only [Session.step, Fanout.step] at hs
        split at hs
        · exact cursor_recv hK ‹_› hs
        · cases hs
      | forward =>
        simp only [Session.step, Fanout.step] at hs
        split at hs <;> cases hs
        exact cursor_forward hK ‹_›
    | reader b =>
      exact cursor_reader hK hsh hwired.shared (hwired.each i _ (session_eq_some.mp hc)) hs
    | supervise b => exact cursor_supervise hK hs
    | call b => cases hs
  · -- other
    rintro p i l a w' l' j c hr hI - hne hl hc hs
    have hK := hI.session j c hc
    have hwired := wired_run hr
    rw [forwarded_grew (queue_other hne hs) (by rintro x ⟨-, s, hx⟩; simp [Item.message?, hx])]
    rcases task_wiring hs with ht | hrx
    · exact hK.topic (shaped_run hr hc) hwired.shared
        (fun ch q hq => hwired.each i l hl q.key ch (aims_of_publication hq)) ht
    · exact hK.rx hne hrx

end WsServer
