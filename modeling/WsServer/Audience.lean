import WsServer.Ordering

/-! Who hears a publish. A channel has a receiver for a connection exactly while the connection listens on
    it, so what `publish` returns is the number of the connections that listen on the key at that moment.
    Each of them finds the message behind what it still has to receive, and nobody else does. -/

namespace WsServer

open Lib

variable {E : Ext} {w : World E} {i : ℕ} {c : Session E} {r : World E × Session E} {config : Config}
  {p p' : ServerState E}

/-! ### Receivers -/

/-- Channel `ch` has a receiver for connection `r`. -/
def Wiring.hears (g : Wiring E) (ch r : ℕ) : Bool := (g.pending ch r).isSome

theorem hears_topic {g g' : Wiring E} {pub : Option (ℕ × Publish E)} (h : TopicStep g pub g')
    (ch r : ℕ) : g'.hears ch r = g.hears ch r := by
  cases h with
  | same e => rw [e]
  | created key cap new e => rw [e, Wiring.hears, Wiring.pending_create, Wiring.hears]
  | published ch' q aim e =>
    rw [e, Wiring.hears, Wiring.pending_publish, Wiring.hears]
    split
    · rw [Option.isSome_map]
    · rfl

theorem hears_rx {g g' : Wiring E} {r : ℕ} (h : RxStep g i g') (hr : r ≠ i) (ch : ℕ) :
    g'.hears ch r = g.hears ch r := by
  obtain ⟨ch', f, rfl, others⟩ := h
  by_cases hch : ch' = ch
  · subst hch
    rw [Wiring.hears, others r hr, Wiring.hears]
  · rw [Wiring.hears, Wiring.pending_onChannel, if_neg hch, Wiring.hears]

theorem hears_dropRx (w : World E) (i ch ch' : ℕ) :
    (w.dropRx i ch).wiring.hears ch' i = (w.wiring.hears ch' i && decide (ch ≠ ch')) := by
  have h := Wiring.pending_onChannel w.wiring ch ch' i (·.dropRx i)
  rw [show (w.dropRx i ch).wiring = w.wiring.onChannel ch (·.dropRx i) from rfl, Wiring.hears, h]
  split
  · rename_i hch
    subst hch
    simp [Broadcast.pending_dropRx]
  · rename_i hch
    simp [hch, Wiring.hears]

/-- Only a connection that listens on a channel has a receiver there. -/
def Seated (g : Wiring E) (i : ℕ) (c : Session E) : Prop :=
  ∀ ch, g.hears ch i = true → c.listens = true ∧ c.chan = ch

theorem Seated.still {g g' : Wiring E} {c' : Session E} (h : Seated g i c)
    (hg : ∀ ch, g'.hears ch i = true → g.hears ch i = true) (hlistens : c.listens = true → c'.listens = true)
    (hchan : c'.chan = c.chan) : Seated g' i c' := by
  intro ch hch
  obtain ⟨hl, rfl⟩ := h ch (hg ch hch)
  exact ⟨hlistens hl, hchan⟩

/-- A connection that does not listen has no receiver at all. -/
theorem Seated.deaf {g : Wiring E} (h : Seated g i c) (hl : c.listens = false) (ch : ℕ) :
    g.hears ch i = false := by
  by_contra hch
  rw [Bool.not_eq_false] at hch
  rw [(h ch hch).1] at hl
  cases hl

/-- The receiver is dropped where it was. -/
theorem Seated.dropRx {c' : Session E} (h : Seated w.wiring i c) :
    Seated (w.dropRx i c.chan).wiring i c' := by
  intro ch hch
  rw [hears_dropRx, Bool.and_eq_true, decide_eq_true_eq] at hch
  exact (hch.2 (h ch hch.1).2).elim

theorem seated_setup {a : SetupAct} (hc : c.Shaped) (h : Seated w.wiring i c)
    (hs : Setup.step w i c a = some r) : Seated r.1.wiring i r.2 := by
  have hfan := hc.fanout
  cases a <;> simp only [Setup.step, Option.ite_none_right_eq_some, Option.some.injEq] at hs <;>
    obtain ⟨hst, rfl⟩ := hs <;> rw [hst] at hfan
  case accept =>
    exact h.still (fun _ hch => hch) (by simp [Session.listens, hst, hfan (by decide)]) rfl
  case openQueue =>
    simp only [Setup.openQueue]
    split <;> exact h.still (fun _ hch => hch) (by simp [Session.listens, hst, hfan (by decide)]) rfl
  case locate =>
    have hdeaf := h.deaf (by simp [Session.listens, hst, hfan (by decide)])
    unfold Setup.locate
    split
    · rename_i ch w' hl
      intro ch' hch
      have hstep : TopicStep w.wiring none w'.wiring := topicSender_topicStep hl
      rw [hears_topic hstep, hdeaf] at hch
      cases hch
    · intro ch' hch
      have hsame : w.wiring.hears ch' i = true := hch
      rw [hdeaf] at hsame
      cases hsame
  case subscribe =>
    have hdeaf := h.deaf (by simp [Session.listens, hst, hfan (by decide)])
    intro ch hch
    refine ⟨by simp [Setup.subscribe, Session.listens, hfan (by decide)], ?_⟩
    by_contra hchan
    have hne : ¬ c.chan = ch := hchan
    have hpend := Wiring.pending_onChannel w.wiring c.chan ch i (·.subscribe i)
    rw [if_neg hne] at hpend
    have hsame : w.wiring.hears ch i = true := by
      rw [Wiring.hears, ← hpend]
      exact hch
    rw [hdeaf] at hsame
    cases hsame
  case ready =>
    unfold Setup.ready
    split
    · rw [World.wiring_sendEncoded]
      exact h.still (fun _ hch => hch) (by simp [Session.listens, hst, hfan (by decide)]) rfl
    · exact h.dropRx
  case number | register | spawnWriter | spawnFanout =>
    exact h.still (fun _ hch => hch)
      (by simp [Setup.number, Setup.register, Session.listens, hfan (by decide)]) rfl
  case spawnReader =>
    refine h.still (fun _ hch => hch) ?_ rfl
    unfold Session.listens
    rw [hst]
    cases c.fanout <;> simp

theorem seated_fanout {a : FanoutAct} (h : Seated w.wiring i c) (hs : Fanout.step w i c a = some r) :
    Seated r.1.wiring i r.2 := by
  cases a with
  | recv =>
    simp only [Fanout.step] at hs
    split at hs
    · rename_i hwait
      have hlistens : c.listens = true := by rw [Session.listens, hwait]
      unfold Fanout.recv at hs
      split at hs
      · cases hs
      · rename_i cl hcl
        have hkeep : ∀ {o : Recv (Sent E)} {b : Broadcast (Sent E)}, cl.chan.recv i = some (o, b) →
            ∀ ch, (w.onChannel c.chan fun _ => b).wiring.hears ch i = true → c.chan = ch := by
          intro o b _ ch hch
          by_contra hne
          have hpend := Wiring.pending_onChannel w.wiring c.chan ch i fun _ => b
          rw [if_neg hne] at hpend
          have hsame : w.wiring.hears ch i = true := by
            rw [Wiring.hears, ← hpend]
            exact hch
          exact hne (h ch hsame).2
        split at hs
        · cases hs
        · cases hs
          exact fun ch hch => ⟨rfl, hkeep ‹_› ch hch⟩
        · cases hs
          refine fun ch hch => ⟨?_, hkeep ‹_› ch hch⟩
          rw [Session.listens, hwait]
    · cases hs
  | forward =>
    simp only [Fanout.step] at hs
    split at hs <;> cases hs
    rename_i m hholding
    have hwir := World.wiring_sendEncoded w i m.bytes (.topic m.seq)
    simp only [Fanout.forward]
    split
    · rw [hwir]
      exact h.still (fun _ hch => hch) (fun _ => rfl) rfl
    · have h' : Seated (w.sendEncoded i m.bytes (.topic m.seq)).2.wiring i c := by
        rw [hwir]
        exact h
      exact h'.dropRx

theorem seated_supervise {a : SuperviseAct} (h : Seated w.wiring i c)
    (hs : Supervise.step w i c a = some r) : Seated r.1.wiring i r.2 := by
  cases a with
  | select t =>
    simp only [Supervise.step, Option.ite_none_right_eq_some, Option.some.injEq] at hs
    obtain ⟨⟨hst, -⟩, rfl⟩ := hs
    refine h.still (fun _ hch => hch) ?_ rfl
    unfold Session.listens
    rw [hst]
    cases c.fanout <;> simp
  | cancel t =>
    simp only [Supervise.step] at hs
    split at hs
    · split at hs
      · cases t with
        | fanout =>
          simp only [Supervise.cancel] at hs
          split at hs <;> cases hs
          exact h.dropRx
        | reader | writer =>
          simp only [Supervise.cancel] at hs
          split at hs <;> cases hs <;> exact h.still (fun _ hch => hch) id rfl
      · cases hs
    · cases hs
  | join =>
    simp only [Supervise.step] at hs
    split at hs
    · rename_i hst
      split at hs <;> cases hs
      refine h.still (fun _ hch => hch) ?_ rfl
      unfold Session.listens
      rw [hst]
      cases c.fanout <;> simp
    · cases hs
  | unregisterGet =>
    simp only [Supervise.step, Option.ite_none_right_eq_some, Option.some.injEq] at hs
    obtain ⟨hst, rfl⟩ := hs
    refine h.still (fun _ hch => hch) ?_ rfl
    unfold Session.listens
    rw [hst]
    cases c.fanout <;> simp
  | unregisterRemove =>
    simp only [Supervise.step] at hs
    split at hs <;> cases hs
    rename_i own hst
    have hwir : (Supervise.unregisterRemove w c own).1.wiring = w.wiring := by cases own <;> rfl
    rw [hwir]
    refine h.still (fun _ hch => hch) ?_ rfl
    unfold Session.listens
    rw [hst, show (Supervise.unregisterRemove w c own).2.fanout = c.fanout from rfl]
    cases c.fanout <;> simp
  | close =>
    simp only [Supervise.step] at hs
    split at hs <;> cases hs
    rename_i hst
    refine h.still (fun _ hch => hch) ?_ rfl
    unfold Session.listens
    rw [hst]
    cases c.fanout <;> simp

theorem seated_session {a : TaskAct} (hc : c.Shaped) (h : Seated w.wiring i c)
    (hs : Session.step w i c a = some r) : Seated r.1.wiring i r.2 := by
  cases a with
  | handshake b =>
    have hf := Handshake.step_framed hs
    rw [hf.wiring]
    refine h.still (fun _ hch => hch) ?_ (congrArg Seat.chan hf.seat)
    unfold Session.listens
    rw [hf.fanout]
    rcases Handshake.stage_step hs with ⟨hb, -⟩ | ⟨he, -⟩
    · cases c.fanout <;> simp only [imp_self]
      revert hb
      cases c.stage <;> simp [Stage.isHandshake]
    · rw [he]
      exact id
  | setup b => exact seated_setup hc h hs
  | writer b =>
    have hf := Writer.step_framed hs
    rw [hf.wiring]
    refine h.still (fun _ hch => hch) ?_ (congrArg Seat.chan hf.seat)
    simp only [Session.listens, hf.fanout, hf.stage]
    exact id
  | fanout b => exact seated_fanout h hs
  | reader b =>
    have hk := (Reader.step_framed hs).kept
    refine h.still (fun ch hch => ?_) ?_ (congrArg Seat.chan hk.seat)
    · rw [hears_topic (reader_topicStep hs)] at hch
      exact hch
    · simp only [Session.listens, hk.fanout, hk.stage]
      exact id
  | supervise b => exact seated_supervise h hs
  | call b => cases hs

/-- In every run the receivers of a channel belong to connections that listen on it. -/
theorem seated_run {ok : ServerState E → ServerAct E → Prop} (h : Runs config ok p) :
    Holds (fun n w => ∀ ch r, n ≤ r → w.wiring.hears ch r = false)
      (fun w i l => ∀ ch, w.wiring.hears ch i = true → ∃ c, l = Task.ws c ∧ c.listens = true ∧ c.chan = ch)
      p := by
  refine Prog.rely_guarantee ?_ ?_ ?_ ?_ ?_ h
  · -- boot
    refine ⟨fun ch r _ => ?_, fun i l hl => by simp [boot] at hl⟩
    simp [boot, World.init, World.wiring, Wiring.hears, Wiring.pending]
  · -- start
    intro p request _ hI
    refine ⟨fun ch r hr => hI.shared ch r (Nat.le_of_succ_le hr), fun ch hch => ?_⟩
    rw [hI.shared ch _ le_rfl] at hch
    cases hch
  · -- own
    intro p i l a w' l' hr hI _ hl (hs : Task.step p.shared i l a = some (w', l'))
    have hlt : i < p.threads.length := (List.getElem?_eq_some_iff.mp hl).1
    refine ⟨fun ch r hle => ?_, ?_⟩
    · rw [← hI.shared ch r hle]
      rcases task_wiring hs with ht | hrx
      · exact hears_topic ht ch r
      · exact hears_rx hrx (by omega) ch
    · cases l with
      | http d =>
        obtain ⟨d', b, rfl, rfl, hstep⟩ := step_http hs
        intro ch hch
        rw [hears_topic (api_topicStep hstep)] at hch
        obtain ⟨c, hc, -⟩ := hI.each i _ hl ch hch
        cases hc
      | ws c =>
        obtain ⟨c', rfl, hstep⟩ := step_ws hs
        have hseated : Seated p.shared.wiring i c := by
          intro ch hch
          obtain ⟨d, hd, hlistens, hchan⟩ := hI.each i _ hl ch hch
          cases hd
          exact ⟨hlistens, hchan⟩
        intro ch hch
        obtain ⟨hlistens, hchan⟩ :=
          seated_session (shaped_run hr (session_eq_some.mpr hl)) hseated hstep ch hch
        exact ⟨c', rfl, hlistens, hchan⟩
  · -- other
    intro p i l a w' l' j m _ hI _ hne _ hm (hs : Task.step p.shared i l a = some (w', l')) ch hch
    refine hI.each j m hm ch ?_
    rcases task_wiring hs with ht | hrx
    · rw [← hears_topic ht]
      exact hch
    · rw [← hears_rx hrx hne]
      exact hch
  · -- env
    intro p e w' hI he
    cases he
    exact ⟨hI.shared, hI.each⟩

/-! ### How many there are -/

/-- The connections that listen on a key. -/
def ServerState.listeners (p : ServerState E) (key : String) : List ℕ :=
  (List.range p.threads.length).filter fun i =>
    (p.session i).any fun c => c.listens && decide (c.topicKey = key)

theorem mem_listeners {key : String} : i ∈ p.listeners key ↔
    ∃ c, p.session i = some c ∧ c.listens = true ∧ c.topicKey = key := by
  rw [ServerState.listeners, List.mem_filter, List.mem_range, Option.any_eq_true]
  constructor
  · rintro ⟨-, c, hc, hboth⟩
    rw [Bool.and_eq_true, decide_eq_true_eq] at hboth
    exact ⟨c, hc, hboth⟩
  · rintro ⟨c, hc, hlistens, hkey⟩
    refine ⟨(List.getElem?_eq_some_iff.mp (session_eq_some.mp hc)).1, c, hc, ?_⟩
    rw [hlistens, Bool.true_and, decide_eq_true_eq]
    exact hkey

theorem nodup_listeners (p : ServerState E) (key : String) : (p.listeners key).Nodup :=
  List.nodup_range.filter _

/-- A connection listens on a key exactly if the channel of the key has a receiver for it. -/
theorem hears_iff {ok : ServerState E → ServerAct E → Prop} (h : Runs config ok p) {key : String} {ch : ℕ}
    (hch : p.shared.wiring.keyOf ch = some key) (i : ℕ) :
    p.shared.wiring.hears ch i = true ↔ i ∈ p.listeners key := by
  have hinverse := (wired_run h).shared
  rw [mem_listeners]
  constructor
  · intro hears
    have hlt : i < p.threads.length := by
      by_contra hge
      rw [(seated_run h).shared ch i (by omega)] at hears
      cases hears
    obtain ⟨c, hc, hlistens, rfl⟩ := (seated_run h).each i _ (List.getElem?_eq_getElem hlt) ch hears
    have hsession : p.session i = some c :=
      session_eq_some.mpr ((List.getElem?_eq_getElem hlt).trans (congrArg some hc))
    have hrank := listens_rank (shaped_run h hsession) hlistens
    have hkey := ((cursor_run h).session i c hsession).key (by omega)
    exact ⟨c, hsession, hlistens, Option.some.inj (hkey.symm.trans hch)⟩
  · rintro ⟨c, hc, hlistens, rfl⟩
    have hcursor := (cursor_run h).session i c hc
    have hrank := listens_rank (shaped_run h hc) hlistens
    obtain ⟨l, hl, -⟩ := hcursor.live hlistens
    have hsame : c.chan = ch := by
      have hkey := (hinverse _ _).mpr (hcursor.key (by omega))
      exact Option.some.inj (hkey.symm.trans ((hinverse _ _).mpr hch))
    rw [Wiring.hears, ← hsame, hl]
    rfl

/-- A channel has as many receivers as connections listen on its key. -/
theorem receivers_exact {ok : ServerState E → ServerAct E → Prop} (h : Runs config ok p) {ch : ℕ}
    {cl : Channel E} (hcl : p.shared.channels[ch]? = some cl) :
    cl.chan.receivers = (p.listeners cl.key).length := by
  have hkey : p.shared.wiring.keyOf ch = some cl.key := by
    rw [Wiring.keyOf, show p.shared.wiring.channels[ch]? = some cl from hcl]
    rfl
  refine List.Perm.length_eq ?_
  rw [List.perm_ext_iff_of_nodup (AList.keys_nodup _) (nodup_listeners p cl.key)]
  intro i
  rw [← hears_iff h hkey i, ← AList.mem_keys, ← AList.lookup_isSome,
    Wiring.hears, Wiring.pending, show p.shared.wiring.channels[ch]? = some cl from hcl]
  simp [Broadcast.pending]

/-! ### What a publish does -/

theorem publish_receivers {ch : ℕ} {cl : Channel E} (q : Publish E) (hcl : w.channels[ch]? = some cl) :
    (w.publish ch q).1 = cl.chan.receivers := by
  unfold World.publish
  simp only [hcl, Broadcast.send]
  split
  · rename_i hsend
    split at hsend <;> cases hsend
    rfl
  · rename_i hsend
    split at hsend
    · exact Eq.symm ‹_›
    · cases hsend

theorem metrics_publish (w : World E) (ch : ℕ) (q : Publish E) :
    (w.publish ch q).2.app.metrics = w.app.metrics := by
  simp only [World.publish]
  split
  · split <;> rfl
  · rfl

/-- What is shared, but for the counters, the channels and the list of publishes. -/
def World.aside (w : World E) : World E :=
  { w with app := { w.app with metrics := Metrics.zero }, channels := [], published := [] }

theorem aside_publish (w : World E) (ch : ℕ) (q : Publish E) : (w.publish ch q).2.aside = w.aside := by
  simp only [World.publish]
  split
  · split <;> rfl
  · rfl

/-- A publish writes to its own channel only. -/
theorem channel_publish_ne (w : World E) {ch k : ℕ} (q : Publish E) (hne : k ≠ ch) :
    (w.publish ch q).2.channels[k]? = w.channels[k]? := by
  simp only [World.publish]
  split
  · split
    · exact List.getElem?_set_ne (Ne.symm hne)
    · rfl
  · rfl

/-- The step that sends the publication in hand. -/
def Task.sendAct : Task E → TaskAct
  | .ws _ => .reader .send
  | .http _ => .call .send

/-- What the answer to a publish counts: a drop when nobody listens, and for a call one outbound message
    for each connection that does. -/
def Task.counts (n : ℕ) : Task E → Metrics → Metrics
  | .ws _ => if n = 0 then Metrics.messageDropped else id
  | .http _ => if n = 0 then Metrics.messageDropped else Metrics.messageOut^[n]

/-- A publish from `p` to `p'` by task `l` that reached `n` connections. -/
structure Announced (p p' : ServerState E) (i : ℕ) (l : Task E) (q : Publish E) (n : ℕ) : Prop where
  published : p'.shared.published = p.shared.published ++ [q]
  metrics : p'.shared.app.metrics = l.counts n p.shared.app.metrics
  answer : ∀ d, p'.call i = some d → d.pc = .done (.published n)
  heard : ∀ j c m, p.session j = some c → c.listens = true →
    p.shared.wiring.pending c.chan j = some m → p'.shared.wiring.pending c.chan j =
      some (if c.topicKey = q.key then m ++ [⟨q.encoded, p.shared.published.length⟩] else m)
  /-- The channels of other keys are as they were, and none is added. -/
  elsewhere : ∀ k : ℕ, (∀ cl : Channel E, p.shared.channels[k]? = some cl → cl.key ≠ q.key) →
    p'.shared.channels[k]? = p.shared.channels[k]?
  aside : p'.shared.aside = p.shared.aside
  others : ∀ j, j ≠ i → p'.threads[j]? = p.threads[j]?

/-- Sending what is in hand is a publish, the counters, and for a call its answer. -/
theorem send_step {l : Task E} {ch : ℕ} {q : Publish E} (hq : l.publication i = some (ch, q)) :
    ∃ l', Task.step w i l l.sendAct =
        some ((w.publish ch q).2.withMetrics (l.counts (w.publish ch q).1), l') ∧
      ∀ d, l' = .http d → d.pc = .done (.published (w.publish ch q).1) := by
  cases l with
  | ws c =>
    simp only [Task.publication] at hq
    split at hq <;> cases hq
    rename_i topicKey encoded hr
    refine ⟨.ws (Reader.send w i c topicKey ch encoded).2, ?_, by rintro d ⟨⟩⟩
    simp only [Task.sendAct, Task.step, Session.step, Reader.step, hr, Option.map_some, Reader.send,
      Task.counts]
    split <;> rfl
  | http d =>
    simp only [Task.publication] at hq
    split at hq <;> cases hq
    rename_i topicKey encoded hpc
    refine ⟨.http (Api.send w i d topicKey ch encoded).2, ?_, ?_⟩
    · simp only [Task.sendAct, Task.step, Api.step, hpc, Option.map_some, Api.send, Task.counts]
    · rintro d' ⟨⟩
      rfl

/-- A task with a publication in hand can send it, and it reaches the connections that listen on the key,
    each behind what it has not received yet. -/
theorem announced (h : Runs config always p) {l : Task E} {ch : ℕ} {q : Publish E}
    (hl : p.threads[i]? = some l) (hq : l.publication i = some (ch, q)) :
    ∃ p', (server E).next p (.run i l.sendAct) = some p' ∧
      Announced p p' i l q (p.listeners q.key).length := by
  have haimed := (wired_run h).each i l hl q.key ch (aims_of_publication hq)
  obtain ⟨cl, hcl, hkey⟩ := Option.map_eq_some_iff.mp haimed
  have hcl' : p.shared.channels[ch]? = some cl := hcl
  have hlt := (List.getElem?_eq_some_iff.mp hl).1
  have hcount : (p.shared.publish ch q).1 = (p.listeners q.key).length := by
    rw [publish_receivers q hcl', receivers_exact h hcl', hkey]
  have hwiring := wiring_publish p.shared ch q
  obtain ⟨l', hstep, hanswer⟩ := send_step (w := p.shared) hq
  rw [hcount] at hstep hanswer
  have hnext : (server E).next p (.run i l.sendAct) =
      some ⟨(p.shared.publish ch q).2.withMetrics (l.counts (p.listeners q.key).length),
        p.threads.set i l'⟩ := by
    simp only [Prog.next, hl, Option.bind_some]
    exact congrArg (Option.map _) hstep
  refine ⟨_, hnext, congrArg Wiring.published hwiring, ?_, ?_, ?_, ?_, aside_publish p.shared ch q,
    fun j hj => List.getElem?_set_ne (Ne.symm hj)⟩
  · -- metrics
    exact congrArg (l.counts _) (metrics_publish p.shared ch q)
  · -- answer
    intro d hd
    have hd' := call_eq_some.mp hd
    rw [List.getElem?_set_self hlt] at hd'
    exact hanswer d (Option.some.inj hd')
  · -- heard: one channel for one key
    intro j c m hc hlistens hm
    have hrank := listens_rank (shaped_run h hc) hlistens
    have hown := ((cursor_run h).session j c hc).key (by omega)
    have hiff : ch = c.chan ↔ c.topicKey = q.key := by
      constructor
      · rintro rfl
        exact Option.some.inj (hown.symm.trans haimed)
      · intro he
        rw [he] at hown
        have hinverse := (wired_run h).shared
        exact Option.some.inj (((hinverse _ _).mpr haimed).symm.trans ((hinverse _ _).mpr hown))
    change (p.shared.publish ch q).2.wiring.pending c.chan j = _
    rw [hwiring, Wiring.pending_publish, hm]
    by_cases hch : ch = c.chan
    · rw [if_pos hch, if_pos (hiff.mp hch)]
      rfl
    · rw [if_neg hch, if_neg fun he => hch (hiff.mpr he)]
  · -- elsewhere
    intro k hother
    refine channel_publish_ne p.shared q ?_
    rintro rfl
    exact hother cl hcl' hkey

/-- A subscriber of `a`, one of `b`, and a call that is about to publish on `a`. -/
def callToA : List (ServerAct Ext.plain) :=
  .spawn (.ws (.v4 1) ⟨"a", none, none, none⟩) :: steps 0 (handshakeSteps ++ registerSteps ++ spawnSteps) ++
    .spawn (.ws (.v4 2) ⟨"b", none, none, none⟩) :: steps 1 (handshakeSteps ++ registerSteps ++ spawnSteps) ++
    .spawn (.api none (.publish ⟨some "a", none, "hi"⟩)) :: steps 2 [.call .resolve, .call .locate]

theorem announced_callToA : ∃ (p p' : ServerState Ext.plain) (l : Task Ext.plain) (q : Publish Ext.plain),
    (server Ext.plain).next p (.run 2 l.sendAct) = some p' ∧ Announced p p' 2 l q 1 := by
  have hplay : (play Config.plain (fun _ _ => true) callToA).map (fun p : ServerState Ext.plain =>
      p.threads[2]?.any fun l => (l.publication 2).any fun q =>
        decide ((p.listeners q.2.key).length = 1)) = some true := by
    decide +kernel
  obtain ⟨p, hp, hcheck⟩ := play_check _ _ _ _ hplay
  obtain ⟨l, hl, hany⟩ := (Option.any_eq_true _ _).mp hcheck
  obtain ⟨⟨ch, q⟩, hq, hone⟩ := (Option.any_eq_true _ _).mp hany
  obtain ⟨p', hnext, hannounced⟩ := announced hp.toAlways hl hq
  rw [of_decide_eq_true hone] at hannounced
  exact ⟨p, p', l, q, hnext, hannounced⟩

end WsServer
