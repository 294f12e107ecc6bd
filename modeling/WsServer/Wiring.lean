import WsServer.Frames

/-! Topics and channels. `Wiring` gets its own operations, of which the world's are instances: a
    channel is created, a publish is sent, or one receiver moves. `TopicStep` and `RxStep` say which of
    them a step of a task makes. The topic table and the channels stay inverse to each other, and a
    publish adds its number to `pending` of exactly the receivers of its channel. -/

namespace WsServer

open Lib

variable {E : Ext}

namespace Wiring

/-- A new channel for a key. -/
def create (g : Wiring E) (key : String) (cap : ℕ) : Wiring E :=
  { g with
    topics := g.topics.insert key g.channels.length
    channels := g.channels ++ [{ key := key, chan := Broadcast.new cap }] }

def onChannel (g : Wiring E) (ch : ℕ) (f : Broadcast (Sent E) → Broadcast (Sent E)) : Wiring E :=
  { g with channels := g.channels.modify ch fun c => { c with chan := f c.chan } }

/-- Send to the receivers there are. -/
def sendTo (x : Sent E) (b : Broadcast (Sent E)) : Broadcast (Sent E) :=
  match b.send x with
  | some (_, b') => b'
  | none => b

def publish (g : Wiring E) (ch : ℕ) (p : Publish E) : Wiring E :=
  { g.onChannel ch (sendTo ⟨p.encoded, g.published.length⟩) with published := g.published ++ [p] }

/-- The key that a channel was made for. -/
def keyOf (g : Wiring E) (ch : ℕ) : Option String := g.channels[ch]?.map (·.key)

/-- What receiver `r` of a channel has not passed yet. -/
def pending (g : Wiring E) (ch r : ℕ) : Option (List (Sent E)) :=
  g.channels[ch]?.bind fun c => c.chan.pending r

/-- The numbers of the publishes on a key, from number `mark` on. -/
def seqsOn (g : Wiring E) (key : String) (mark : ℕ) : List ℕ :=
  (List.range g.published.length).filter fun s =>
    mark ≤ s && g.published[s]?.map (·.key) = some key

/-- The topic table and the channels are inverse to each other. -/
def Inverse (g : Wiring E) : Prop := ∀ key ch, g.topics.lookup key = some ch ↔ g.keyOf ch = some key

/-! ### Keys -/

theorem keyOf_create (g : Wiring E) (key : String) (cap ch : ℕ) :
    (g.create key cap).keyOf ch = if ch = g.channels.length then some key else g.keyOf ch := by
  rw [keyOf, create, List.getElem?_append]
  split
  · rw [if_neg (by omega), keyOf]
  · rename_i hlt
    by_cases hc : ch = g.channels.length
    · subst hc; simp
    · rw [if_neg hc, keyOf, List.getElem?_eq_none (by simp; omega), List.getElem?_eq_none (by omega)]

@[simp] theorem keyOf_onChannel (g : Wiring E) (ch ch' : ℕ)
    (f : Broadcast (Sent E) → Broadcast (Sent E)) : (g.onChannel ch f).keyOf ch' = g.keyOf ch' := by
  rw [keyOf, onChannel, List.getElem?_modify, keyOf]
  split
  · cases g.channels[ch']? <;> rfl
  · simp

@[simp] theorem keyOf_publish (g : Wiring E) (ch ch' : ℕ) (p : Publish E) :
    (g.publish ch p).keyOf ch' = g.keyOf ch' :=
  keyOf_onChannel g ch ch' _

theorem keyOf_lt {g : Wiring E} {ch : ℕ} {key : String} (h : g.keyOf ch = some key) :
    ch < g.channels.length := by
  rw [keyOf, Option.map_eq_some_iff] at h
  obtain ⟨c, hc, -⟩ := h
  exact (List.getElem?_eq_some_iff.mp hc).1

/-- A new key gets a new channel and the others keep theirs. -/
theorem Inverse.create {g : Wiring E} (h : g.Inverse) {key : String}
    (hnew : g.topics.lookup key = none) (cap : ℕ) : (g.create key cap).Inverse := by
  intro key' ch
  rw [keyOf_create, Wiring.create, Dict.lookup_insert_if]
  by_cases hk : key' = key
  · subst hk
    rw [if_pos rfl, Option.some.injEq]
    constructor
    · rintro rfl; rw [if_pos rfl]
    · rintro hch
      split at hch
      · exact Eq.symm ‹_›
      · rw [(h key' ch).mpr hch] at hnew; cases hnew
  · rw [if_neg hk, h key' ch]
    by_cases hc : ch = g.channels.length
    · rw [if_pos hc]
      constructor
      · rintro hch; exact absurd (keyOf_lt hch) (by omega)
      · rintro he; exact absurd (Option.some.inj he).symm hk
    · rw [if_neg hc]

theorem Inverse.onChannel {g : Wiring E} (h : g.Inverse) (ch : ℕ)
    (f : Broadcast (Sent E) → Broadcast (Sent E)) : (g.onChannel ch f).Inverse := by
  intro key ch'
  rw [keyOf_onChannel]
  exact h key ch'

theorem Inverse.publish {g : Wiring E} (h : g.Inverse) (ch : ℕ) (p : Publish E) :
    (g.publish ch p).Inverse := by
  intro key ch'
  rw [keyOf_publish]
  exact h key ch'

/-! ### Pending values -/

theorem pending_create (g : Wiring E) (key : String) (cap ch r : ℕ) :
    (g.create key cap).pending ch r = g.pending ch r := by
  rw [pending, pending, create, List.getElem?_append]
  split
  · rfl
  · rename_i hlt
    rw [List.getElem?_eq_none (by omega : g.channels.length ≤ ch), List.getElem?_singleton]
    split <;> rfl

theorem pending_onChannel (g : Wiring E) (ch ch' r : ℕ)
    (f : Broadcast (Sent E) → Broadcast (Sent E)) :
    (g.onChannel ch f).pending ch' r =
      if ch = ch' then g.channels[ch']?.bind fun c => (f c.chan).pending r
      else g.pending ch' r := by
  rw [pending, onChannel, List.getElem?_modify]
  split
  · cases g.channels[ch']? <;> rfl
  · simp [pending]

/-- A send is pending for whoever has a receiver, and there is nobody when it fails. -/
theorem pending_sendTo (x : Sent E) (b : Broadcast (Sent E)) (r : ℕ) :
    (sendTo x b).pending r = (b.pending r).map (· ++ [x]) := by
  unfold sendTo
  split
  · rename_i b' hs
    exact Broadcast.pending_send hs r
  · rename_i hs
    have hzero : b.receivers = 0 := by
      unfold Broadcast.send at hs
      split at hs
      · assumption
      · cases hs
    cases hp : b.pending r with
    | none => rfl
    | some l => exact absurd hzero (Broadcast.receivers_pos hp)

theorem pending_publish (g : Wiring E) (ch ch' r : ℕ) (p : Publish E) :
    (g.publish ch p).pending ch' r =
      if ch = ch' then (g.pending ch' r).map (· ++ [⟨p.encoded, g.published.length⟩])
      else g.pending ch' r := by
  have h := pending_onChannel g ch ch' r (sendTo ⟨p.encoded, g.published.length⟩)
  rw [show (g.publish ch p).pending ch' r = _ from h]
  split
  · rw [pending, Option.map_bind]
    congr 1; funext c
    exact pending_sendTo _ _ _
  · rfl

/-! ### The publishes on a key -/

theorem seqsOn_publish (g : Wiring E) (ch : ℕ) (p : Publish E) (key : String) (mark : ℕ)
    (hmark : mark ≤ g.published.length) :
    (g.publish ch p).seqsOn key mark =
      g.seqsOn key mark ++ if p.key = key then [g.published.length] else [] := by
  have hlen : (g.publish ch p).published = g.published ++ [p] := rfl
  rw [seqsOn, hlen, List.length_append, List.length_singleton, List.range_succ, List.filter_append]
  congr 1
  · refine List.filter_congr fun s hs => ?_
    rw [List.getElem?_append_left (List.mem_range.mp hs)]
  · by_cases hk : p.key = key <;> simp [hmark, hk]

theorem mem_seqsOn {g : Wiring E} {key : String} {mark s : ℕ} :
    s ∈ g.seqsOn key mark ↔ mark ≤ s ∧ ∃ p, g.published[s]? = some p ∧ p.key = key := by
  rw [seqsOn, List.mem_filter, List.mem_range, Bool.and_eq_true, decide_eq_true_eq,
    decide_eq_true_eq, Option.map_eq_some_iff]
  constructor
  · rintro ⟨-, hm, hp⟩; exact ⟨hm, hp⟩
  · rintro ⟨hm, p, hp, hk⟩
    exact ⟨(List.getElem?_eq_some_iff.mp hp).1, hm, p, hp, hk⟩

/-- The publish with this number had this message. -/
def Carries (g : Wiring E) (e : ℕ × OutboundMessage E) : Prop :=
  ∃ p, g.published[e.1]? = some p ∧ e.2 = .binary p.encoded

theorem Carries.publish {g : Wiring E} {e : ℕ × OutboundMessage E} (h : g.Carries e) (ch : ℕ)
    (p : Publish E) : (g.publish ch p).Carries e := by
  obtain ⟨p', hp, he⟩ := h
  refine ⟨p', ?_, he⟩
  rw [show (g.publish ch p).published = g.published ++ [p] from rfl,
    List.getElem?_append_left (List.getElem?_eq_some_iff.mp hp).1]
  exact hp

/-- Publish numbers grow. -/
theorem seqsOn_pairwise (g : Wiring E) (key : String) (mark : ℕ) :
    (g.seqsOn key mark).Pairwise (· < ·) :=
  List.Pairwise.filter _ List.pairwise_lt_range

end Wiring

/-! ### The steps of the tasks -/

theorem wiring_topicSender {w : World E} {key : String} {r : ℕ × World E}
    (h : w.topicSender key = some r) :
    (w.wiring.topics.lookup key = some r.1 ∧ r.2.wiring = w.wiring) ∨
      (w.wiring.topics.lookup key = none ∧ r.1 = w.wiring.channels.length ∧
        ∃ cap, r.2.wiring = w.wiring.create key cap) := by
  simp only [World.topicSender] at h
  split at h
  · rename_i ch hl
    cases h; exact Or.inl ⟨hl, rfl⟩
  · rename_i hl
    split at h
    · cases h
    · cases h; exact Or.inr ⟨hl, rfl, _, rfl⟩

theorem channels_publish (w : World E) (ch : ℕ) (p : Publish E) :
    (w.publish ch p).2.channels = (w.wiring.publish ch p).channels := by
  refine List.ext_getElem? fun k => ?_
  simp only [Wiring.publish, Wiring.onChannel, World.wiring, List.getElem?_modify, Wiring.sendTo]
  cases hc : w.channels[ch]? with
  | none =>
    simp only [World.publish, hc]
    by_cases hk : ch = k
    · subst hk; simp [hc]
    · simp [hk]
  | some c =>
    cases hs : c.chan.send ⟨p.encoded, w.published.length⟩ with
    | none =>
      simp only [World.publish, hc, hs]
      by_cases hk : ch = k
      · subst hk; simp [hc, hs]
      · simp [hk]
    | some nb =>
      simp only [World.publish, hc, hs]
      by_cases hk : ch = k
      · subst hk
        rw [List.getElem?_set_self (List.getElem?_eq_some_iff.mp hc).1]
        simp [hc, hs]
      · simp [hk]

theorem wiring_publish (w : World E) (ch : ℕ) (p : Publish E) :
    (w.publish ch p).2.wiring = w.wiring.publish ch p := by
  have hrest : (w.publish ch p).2.app.topics = w.app.topics ∧
      (w.publish ch p).2.published = w.published ++ [p] := by
    simp only [World.publish]
    split
    · split <;> exact ⟨rfl, rfl⟩
    · exact ⟨rfl, rfl⟩
  obtain ⟨htop, hpub⟩ := hrest
  rw [World.wiring, htop, hpub, channels_publish]
  rfl

/-- The publish that a task is about to send, with its channel. -/
def Task.publication (i : ℕ) : Task E → Option (ℕ × Publish E)
  | .ws c =>
    match c.reader with
    | .sending topicKey ch encoded => some (ch, ⟨topicKey, c.identity, .ws i c.frames, encoded⟩)
    | _ => none
  | .http c =>
    match c.pc with
    | .sending topicKey ch encoded => some (ch, ⟨topicKey, c.identity, .http i, encoded⟩)
    | _ => none

/-- Nothing, a channel for a key that had none, or the send of the publication in hand. -/
inductive TopicStep (g : Wiring E) (pub : Option (ℕ × Publish E)) (g' : Wiring E) : Prop
  | same (e : g' = g)
  | created (key : String) (cap : ℕ) (new : g.topics.lookup key = none) (e : g' = g.create key cap)
  | published (ch : ℕ) (p : Publish E) (aim : pub = some (ch, p)) (e : g' = g.publish ch p)

/-- Receiver `i` of some channel comes, goes or moves, and no other one does. -/
inductive RxStep (g : Wiring E) (i : ℕ) (g' : Wiring E) : Prop
  | moved (ch : ℕ) (f : Broadcast (Sent E) → Broadcast (Sent E)) (e : g' = g.onChannel ch f)
      (others : ∀ r, r ≠ i → g'.pending ch r = g.pending ch r)

theorem topicSender_topicStep {w : World E} {key : String} {r : ℕ × World E}
    {pub : Option (ℕ × Publish E)} (h : w.topicSender key = some r) :
    TopicStep w.wiring pub r.2.wiring := by
  rcases wiring_topicSender h with ⟨-, he⟩ | ⟨hnew, -, cap, he⟩
  · exact .same he
  · exact .created key cap hnew he

variable {w : World E} {i : ℕ} {c : Session E} {r : World E × Session E}

theorem rxStep_subscribe (w : World E) (i ch : ℕ) :
    RxStep w.wiring i (w.onChannel ch (·.subscribe i)).wiring := by
  refine .moved ch (·.subscribe i) rfl fun r hr => ?_
  have h := Wiring.pending_onChannel w.wiring ch ch r (·.subscribe i)
  rw [if_pos rfl] at h
  refine h.trans ?_
  rw [Wiring.pending]
  congr 1; funext b
  rw [Broadcast.pending_subscribe, if_neg hr]

theorem rxStep_dropRx (w : World E) (i ch : ℕ) : RxStep w.wiring i (w.dropRx i ch).wiring := by
  refine .moved ch (·.dropRx i) rfl fun r hr => ?_
  have h := Wiring.pending_onChannel w.wiring ch ch r (·.dropRx i)
  rw [if_pos rfl] at h
  refine h.trans ?_
  rw [Wiring.pending]
  congr 1; funext b
  rw [Broadcast.pending_dropRx, if_neg hr]

theorem rxStep_recv {ch : ℕ} {cl : Channel E} {o : Recv (Sent E)} {b : Broadcast (Sent E)}
    (hc : w.channels[ch]? = some cl) (hr : cl.chan.recv i = some (o, b)) :
    RxStep w.wiring i (w.onChannel ch fun _ => b).wiring := by
  refine .moved ch (fun _ => b) rfl fun r hne => ?_
  have h := Wiring.pending_onChannel w.wiring ch ch r (fun _ => b)
  rw [if_pos rfl] at h
  refine h.trans ?_
  have hc' : w.wiring.channels[ch]? = some cl := hc
  rw [Wiring.pending, hc']
  exact Broadcast.recv_other hr hne

theorem reader_topicStep {a : ReaderAct} (h : Reader.step w i c a = some r) :
    TopicStep w.wiring ((Task.ws c).publication i) r.1.wiring := by
  cases a with
  | locate =>
    simp only [Reader.step] at h
    split at h <;> cases h
    unfold Reader.locate
    split
    · exact topicSender_topicStep ‹_›
    · exact .same rfl
  | send =>
    simp only [Reader.step] at h
    split at h <;> cases h
    rename_i key ch enc hpc
    refine .published ch ⟨key, c.identity, .ws i c.frames, enc⟩ (by simp [Task.publication, hpc]) ?_
    rw [← wiring_publish]
    simp only [Reader.send]
    split <;> rfl
  | tenantRate =>
    simp only [Reader.step] at h
    split at h <;> cases h
    exact .same (Reader.tenantRate_quiet _).2.2.1
  | start | reply | limitClose =>
    simp only [Reader.step] at h
    split at h <;> cases h
    exact .same (by simp [Reader.start, Reader.reply, Reader.limitClose])
  | frame f =>
    simp only [Reader.step] at h
    split at h <;> cases h
    exact .same (Reader.frame_wiring f)
  | direct =>
    simp only [Reader.step] at h
    split at h <;> cases h
    refine .same ?_
    simp only [Reader.direct]
    split <;> simp
  | limitError =>
    simp only [Reader.step] at h
    split at h <;> cases h
    refine .same ?_
    simp only [Reader.limitError]
    split <;> simp
  | idleTimeout =>
    simp only [Reader.step] at h
    split at h
    · split at h <;> cases h
      exact .same (by simp [Reader.idleTimeout])
    · cases h

theorem api_topicStep {d : Call E} {s : World E × Call E} {a : CallAct}
    (h : Api.step w i d a = some s) :
    TopicStep w.wiring ((Task.http d).publication i) s.1.wiring := by
  cases a with
  | resolve =>
    simp only [Api.step] at h
    split at h <;> cases h
    exact .same rfl
  | locate =>
    simp only [Api.step] at h
    split at h <;> cases h
    unfold Api.locate
    split
    · exact topicSender_topicStep ‹_›
    · exact .same rfl
  | send =>
    simp only [Api.step] at h
    split at h <;> cases h
    rename_i key ch enc hpc
    refine .published ch ⟨key, d.identity, .http i, enc⟩ (by simp [Task.publication, hpc]) ?_
    rw [← wiring_publish]
    rfl
  | direct =>
    simp only [Api.step] at h
    split at h <;> cases h
    refine .same ?_
    simp only [Api.deliver]
    split <;> simp

theorem fanout_rxStep {a : FanoutAct} (h : Fanout.step w i c a = some r) :
    r.1.wiring = w.wiring ∨ RxStep w.wiring i r.1.wiring := by
  cases a with
  | recv =>
    simp only [Fanout.step] at h
    split at h
    · unfold Fanout.recv at h
      split at h
      · cases h
      · split at h <;> cases h
        · exact Or.inr (rxStep_recv ‹_› ‹_›)
        · exact Or.inr (rxStep_recv ‹_› ‹_›)
    · cases h
  | forward =>
    simp only [Fanout.step] at h
    split at h <;> cases h
    rename_i m _
    simp only [Fanout.forward]
    split
    · exact Or.inl (World.wiring_sendEncoded w i _ _)
    · have hrx := rxStep_dropRx (w.sendEncoded i m.bytes (.topic m.seq)).2 i c.chan
      rw [World.wiring_sendEncoded] at hrx
      exact Or.inr hrx

theorem setup_wiring {a : SetupAct} {pub : Option (ℕ × Publish E)}
    (h : Setup.step w i c a = some r) :
    TopicStep w.wiring pub r.1.wiring ∨ RxStep w.wiring i r.1.wiring := by
  cases a <;> simp only [Setup.step, Option.ite_none_right_eq_some, Option.some.injEq] at h <;>
    obtain ⟨-, rfl⟩ := h
  case openQueue =>
    refine Or.inl (.same ?_)
    simp only [Setup.openQueue]
    split <;> rfl
  case locate =>
    unfold Setup.locate
    split
    · exact Or.inl (topicSender_topicStep ‹_›)
    · exact Or.inl (.same rfl)
  case subscribe => exact Or.inr (rxStep_subscribe w i c.chan)
  case ready =>
    unfold Setup.ready
    split
    · exact Or.inl (.same (World.wiring_sendEncoded w i _ _))
    · exact Or.inr (rxStep_dropRx w i c.chan)
  all_goals exact Or.inl (.same rfl)

/-- A supervisor takes the topic receiver away with the fanout that waits on it. -/
theorem supervise_fanout {a : SuperviseAct} (h : Supervise.step w i c a = some r) :
    (r.1.wiring = w.wiring ∧ r.2.fanout = c.fanout) ∨
      (RxStep w.wiring i r.1.wiring ∧ c.fanout = .waiting ∧ r.2.fanout = .cancelled) := by
  cases a with
  | select t =>
    simp only [Supervise.step, Option.ite_none_right_eq_some, Option.some.injEq] at h
    obtain ⟨-, rfl⟩ := h
    exact Or.inl ⟨rfl, rfl⟩
  | cancel t =>
    simp only [Supervise.step] at h
    split at h
    · split at h
      · cases t with
        | fanout =>
          simp only [Supervise.cancel] at h
          split at h <;> cases h
          exact Or.inr ⟨rxStep_dropRx w i c.chan, ‹_›, rfl⟩
        | reader | writer =>
          simp only [Supervise.cancel] at h
          split at h <;> cases h <;> exact Or.inl ⟨rfl, rfl⟩
      · cases h
    · cases h
  | join =>
    simp only [Supervise.step] at h
    split at h
    · split at h <;> cases h
      exact Or.inl ⟨rfl, rfl⟩
    · cases h
  | unregisterGet =>
    simp only [Supervise.step, Option.ite_none_right_eq_some, Option.some.injEq] at h
    obtain ⟨-, rfl⟩ := h
    exact Or.inl ⟨rfl, rfl⟩
  | unregisterRemove =>
    simp only [Supervise.step] at h
    split at h <;> cases h
    rename_i own _
    cases own <;> exact Or.inl ⟨rfl, rfl⟩
  | close =>
    simp only [Supervise.step] at h
    split at h <;> cases h
    exact Or.inl ⟨rfl, rfl⟩

/-- Every task publishes what it has in hand, or moves its own receiver. -/
theorem task_wiring {l : Task E} {a : TaskAct} {w' : World E} {l' : Task E}
    (h : Task.step w i l a = some (w', l')) :
    TopicStep w.wiring (l.publication i) w'.wiring ∨ RxStep w.wiring i w'.wiring := by
  cases l with
  | http d =>
    obtain ⟨d', b, rfl, rfl, hs⟩ := step_http h
    exact Or.inl (api_topicStep hs)
  | ws c =>
    obtain ⟨c', rfl, hs⟩ := step_ws h
    cases a with
    | handshake b => exact Or.inl (.same (Handshake.step_framed hs).wiring)
    | writer b => exact Or.inl (.same (Writer.step_framed hs).wiring)
    | reader b => exact Or.inl (reader_topicStep hs)
    | fanout b => exact (fanout_rxStep hs).imp_left .same
    | supervise b => exact (supervise_fanout hs).imp (fun h => .same h.1) And.left
    | setup b => exact setup_wiring hs
    | call b => cases hs

end WsServer
