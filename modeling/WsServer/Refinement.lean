import WsServer.Lib.Hub
import WsServer.Lib.Journal
import WsServer.Ordering
import WsServer.Permits

/-! The server refines a hub. Read as a member, a connection has the messages that its receiver still has
    to take; a publish puts its message there for the connections that listen on the key and for no
    others, and a connection that falls behind by more than the channel keeps is told how many it missed.
    The channels, the tasks and their interleavings are not seen. -/

namespace WsServer

open Lib

variable {E : Ext} {w : World E} {i : ℕ} {c : Session E} {r : World E × Session E} {config : Config}
  {p p' : ServerState E}

/-! ### The hub behind the server -/

/-- Key and channel that a connection listens on. -/
def Session.hearing (c : Session E) : Option (String × ℕ) :=
  if c.listens then some (c.topicKey, c.chan) else none

def Task.hearing : Task E → Option (String × ℕ)
  | .ws c => c.hearing
  | .http _ => none

/-- What a member of channel `ch` still has to take. -/
def Wiring.member (g : Wiring E) (i : ℕ) (seat : String × ℕ) : Option (Member String E.Bytes) :=
  (g.pending seat.2 i).map fun l => ⟨seat.1, l.map (·.bytes)⟩

def ServerState.hub (p : ServerState E) : Hub ℕ String E.Bytes := fun i =>
  (p.threads[i]?.bind Task.hearing).bind (p.shared.wiring.member i)

/-- What the fanout of connection `i` gets from channel `ch`. -/
def World.offered (w : World E) (i ch : ℕ) : Option (Recv E.Bytes) :=
  w.channels[ch]?.bind fun cl => (cl.chan.recv i).map fun o => o.1.map (·.bytes)

/-- What a step does at the hub. -/
def Task.hubActs (w : World E) (i : ℕ) (l : Task E) (a : TaskAct) (l' : Task E) :
    List (HubAct ℕ String E.Bytes) :=
  match a with
  | .reader .send | .call .send => (l.publication i).toList.map fun q => .publish q.2.key q.2.encoded
  | .fanout .recv => (l.hearing.bind fun seat => w.offered i seat.2).toList.map fun o => .take i o
  | _ =>
    match l.hearing, l'.hearing with
    | none, some seat => [.join i seat.1]
    | some _, none => [.leave i]
    | _, _ => []

/-! ### What one step does -/

/-- All that a step can do to the channels and to whether its connection listens. -/
inductive Turns (w w' : World E) (i : ℕ) (l : Task E) (a : TaskAct) (l' : Task E) : Prop
  | rest (same : l'.hearing = l.hearing) (acts : l.hubActs w i a l' = []) (e : w'.wiring = w.wiring)
  | created (key : String) (same : l'.hearing = l.hearing) (acts : l.hubActs w i a l' = [])
      (e : w'.wiring = w.wiring.create key (Nat.nextPowerOfTwo w.app.config.topicChannelCapacity))
  | published (ch : ℕ) (q : Publish E) (aim : l.publication i = some (ch, q)) (same : l'.hearing = l.hearing)
      (acts : l.hubActs w i a l' = [.publish q.key q.encoded]) (e : w'.wiring = w.wiring.publish ch q)
  | subscribed (key : String) (ch : ℕ) (located : ∃ c, l = .ws c ∧ c.chan = ch ∧ 3 ≤ c.stage.rank)
      (before : l.hearing = none) (after : l'.hearing = some (key, ch))
      (acts : l.hubActs w i a l' = [.join i key]) (e : w'.wiring = w.wiring.onChannel ch (·.subscribe i))
  | dropped (key : String) (ch : ℕ) (before : l.hearing = some (key, ch)) (after : l'.hearing = none)
      (acts : l.hubActs w i a l' = [.leave i]) (e : w'.wiring = w.wiring.onChannel ch (·.dropRx i))
  | received (key : String) (ch : ℕ) (cl : Channel E) (o : Recv (Sent E)) (b : Broadcast (Sent E))
      (seat : l.hearing = some (key, ch)) (same : l'.hearing = l.hearing) (found : w.channels[ch]? = some cl)
      (recv : cl.chan.recv i = some (o, b)) (acts : l.hubActs w i a l' = [.take i (o.map (·.bytes))])
      (e : w'.wiring = w.wiring.onChannel ch fun _ => b)

theorem hearing_of_listens (h : c.listens = true) : c.hearing = some (c.topicKey, c.chan) := by
  rw [Session.hearing, if_pos h]

theorem hearing_of_deaf (h : c.listens = false) : c.hearing = none := by
  rw [Session.hearing, h]
  rfl

theorem listens_kept {c' : Session E} (hfanout : c'.fanout = c.fanout) (hstage : c'.stage = c.stage) :
    c'.listens = c.listens := by
  unfold Session.listens
  rw [hfanout, hstage]

theorem hearing_kept {c' : Session E} (hseat : c'.seat = c.seat) (hlistens : c'.listens = c.listens) :
    c'.hearing = c.hearing := by
  have hkey : c'.topicKey = c.topicKey := congrArg Seat.topicKey hseat
  have hchan : c'.chan = c.chan := congrArg Seat.chan hseat
  rw [Session.hearing, Session.hearing, hlistens, hkey, hchan]

/-- A step that neither publishes nor receives is seen only by its change of who listens. -/
theorem acts_same {l l' : Task E} {a : TaskAct} (h : l'.hearing = l.hearing) (hreader : a ≠ .reader .send)
    (hcall : a ≠ .call .send) (hfanout : a ≠ .fanout .recv) : l.hubActs w i a l' = [] := by
  unfold Task.hubActs
  split
  · exact absurd rfl hreader
  · exact absurd rfl hcall
  · exact absurd rfl hfanout
  · rw [h]
    cases l.hearing <;> rfl

theorem created_of_topicSender {key : String} {s : ℕ × World E} (h : w.topicSender key = some s) :
    s.2.wiring = w.wiring ∨
      s.2.wiring = w.wiring.create key (Nat.nextPowerOfTwo w.app.config.topicChannelCapacity) := by
  simp only [World.topicSender] at h
  split at h
  · cases h
    exact .inl rfl
  · split at h
    · cases h
    · cases h
      exact .inr rfl

theorem turns_setup {a : SetupAct} (hc : c.Shaped) (hs : Setup.step w i c a = some r) :
    Turns w r.1 i (.ws c) (.setup a) (.ws r.2) := by
  have hfan := hc.fanout
  have hsame : (Task.ws r.2).hearing = (Task.ws c).hearing →
      (Task.ws c).hubActs w i (.setup a) (.ws r.2) = [] :=
    fun h => acts_same h (by rintro ⟨⟩) (by rintro ⟨⟩) (by rintro ⟨⟩)
  cases a <;> simp only [Setup.step, Option.ite_none_right_eq_some, Option.some.injEq] at hs <;>
    obtain ⟨hst, rfl⟩ := hs <;> rw [hst] at hfan
  case accept =>
    have h : (Setup.accept w c).2.hearing = c.hearing := by
      rw [hearing_of_deaf (c := c) (by simp [Session.listens, hst, hfan (by decide)])]
      exact hearing_of_deaf (by simp [Setup.accept, Session.listens, hfan (by decide)])
    exact .rest h (hsame h) rfl
  case openQueue =>
    have h : (Setup.openQueue w i c).2.hearing = c.hearing := by
      rw [hearing_of_deaf (c := c) (by simp [Session.listens, hst, hfan (by decide)])]
      simp only [Setup.openQueue]
      split <;> exact hearing_of_deaf (by simp [Session.listens, hfan (by decide)])
    refine .rest h (hsame h) ?_
    simp only [Setup.openQueue]
    split <;> rfl
  case locate =>
    have h : (Setup.locate w i c).2.hearing = c.hearing := by
      rw [hearing_of_deaf (c := c) (by simp [Session.listens, hst, hfan (by decide)])]
      simp only [Setup.locate]
      split <;> exact hearing_of_deaf (by simp [Session.listens, hfan (by decide)])
    have hacts := hsame h
    revert h hacts
    simp only [Setup.locate]
    split
    · rename_i hl
      intro h hacts
      rcases created_of_topicSender hl with he | he
      · exact .rest h hacts he
      · exact .created _ h hacts he
    · intro h hacts
      exact .rest h hacts rfl
  case subscribe =>
    have hbefore : c.hearing = none :=
      hearing_of_deaf (by simp [Session.listens, hst, hfan (by decide)])
    have hafter : (Setup.subscribe w i c).2.hearing = some (c.topicKey, c.chan) :=
      hearing_of_listens (c := (Setup.subscribe w i c).2)
        (by simp [Setup.subscribe, Session.listens, hfan (by decide)])
    refine .subscribed c.topicKey c.chan ⟨c, rfl, rfl, by rw [hst]; decide⟩ hbefore hafter ?_ rfl
    simp only [Task.hubActs, Task.hearing, hbefore, hafter]
  case ready =>
    have hbefore : c.listens = true := by simp [Session.listens, hst, hfan (by decide)]
    revert hsame
    unfold Setup.ready
    split
    · intro hsame
      have h : Session.hearing { c with stage := .readied } = c.hearing := by
        rw [hearing_of_listens hbefore]
        exact hearing_of_listens (c := { c with stage := .readied })
          (by simp [Session.listens, hfan (by decide)])
      exact .rest h (hsame h) (World.wiring_sendEncoded w i _ _)
    · intro _
      have hafter : Session.hearing { c with stage := .returned false } = none :=
        hearing_of_deaf (by simp [Session.listens, hfan (by decide)])
      refine .dropped c.topicKey c.chan (hearing_of_listens hbefore) hafter ?_ rfl
      simp only [Task.hubActs, Task.hearing, hearing_of_listens hbefore, hafter]
  case number | register | spawnWriter | spawnFanout =>
    refine .rest ?_ (hsame ?_) rfl <;>
      simp [Task.hearing, Session.hearing, Session.listens, Setup.number, Setup.register, hst,
        hfan (by decide)]
  case spawnReader =>
    have h : Session.hearing { c with stage := .running, reader := .spawned } = c.hearing := by
      unfold Session.hearing Session.listens
      rw [hst]
    exact .rest h (hsame h) rfl

theorem turns_fanout {a : FanoutAct} (hs : Fanout.step w i c a = some r) :
    Turns w r.1 i (.ws c) (.fanout a) (.ws r.2) := by
  cases a with
  | recv =>
    simp only [Fanout.step] at hs
    split at hs
    · rename_i hwait
      have hlistens : c.listens = true := by rw [Session.listens, hwait]
      have hbefore := hearing_of_listens hlistens
      unfold Fanout.recv at hs
      split at hs
      · cases hs
      · rename_i cl hcl
        have hacts : ∀ {o : Recv (Sent E)} {b : Broadcast (Sent E)} (l' : Task E),
            cl.chan.recv i = some (o, b) →
              (Task.ws c).hubActs w i (.fanout .recv) l' = [.take i (o.map (·.bytes))] := by
          intro o b l' hrecv
          simp only [Task.hubActs, Task.hearing, hbefore, Option.bind_some, World.offered, hcl, hrecv,
            Option.map_some, Option.toList_some, List.map_cons, List.map_nil]
        split at hs
        · cases hs
        · rename_i m b hrecv
          cases hs
          exact .received c.topicKey c.chan cl (.ok m) b hbefore hbefore.symm hcl hrecv (hacts _ hrecv) rfl
        · rename_i n b hrecv
          cases hs
          refine .received c.topicKey c.chan cl (.lagged n) b hbefore ?_ hcl hrecv (hacts _ hrecv) rfl
          rw [show (Task.ws c).hearing = c.hearing from rfl, hbefore]
          exact hearing_of_listens (by rw [Session.listens, hwait])
    · cases hs
  | forward =>
    simp only [Fanout.step] at hs
    split at hs <;> cases hs
    rename_i m hholding
    have hlistens : c.listens = true := by rw [Session.listens, hholding]
    have hbefore := hearing_of_listens hlistens
    have hwir := World.wiring_sendEncoded w i m.bytes (.topic m.seq)
    simp only [Fanout.forward]
    split
    · have h : Session.hearing { c with fanout := .waiting } = c.hearing := by
        rw [hbefore]
        rfl
      exact .rest h (acts_same h (by rintro ⟨⟩) (by rintro ⟨⟩) (by rintro ⟨⟩)) hwir
    · refine .dropped c.topicKey c.chan hbefore rfl ?_ ?_
      · simp only [Task.hubActs, Task.hearing, hbefore]
        rfl
      · rw [← hwir]
        rfl

theorem wiring_cancelled {a : SuperviseAct} (hs : Supervise.step w i c a = some r)
    (hwait : c.fanout = .waiting) (hcancelled : r.2.fanout = .cancelled) :
    r.1.wiring = w.wiring.onChannel c.chan (·.dropRx i) := by
  by_cases ha : a = .cancel .fanout
  · subst ha
    simp only [Supervise.step] at hs
    split at hs
    · split at hs
      · simp only [Supervise.cancel, hwait] at hs
        cases hs
        rfl
      · cases hs
    · cases hs
  · have hkept : r.2.fanout = c.fanout := by
      cases a with
      | cancel t =>
        simp only [Supervise.step] at hs
        split at hs
        · split at hs
          · cases t with
            | fanout => exact absurd rfl ha
            | reader | writer =>
              simp only [Supervise.cancel] at hs
              split at hs <;> cases hs <;> rfl
          · cases hs
        · cases hs
      | select t | unregisterGet =>
        simp only [Supervise.step, Option.ite_none_right_eq_some, Option.some.injEq] at hs
        obtain ⟨-, rfl⟩ := hs
        rfl
      | unregisterRemove | close =>
        simp only [Supervise.step] at hs
        split at hs <;> cases hs
        rfl
      | join =>
        simp only [Supervise.step] at hs
        split at hs
        · split at hs <;> cases hs
          rfl
        · cases hs
    rw [hkept, hwait] at hcancelled
    cases hcancelled

theorem wiring_reader {a : ReaderAct} (hs : Reader.step w i c a = some r) (hlocate : a ≠ .locate)
    (hsend : a ≠ .send) : r.1.wiring = w.wiring := by
  cases a with
  | locate => exact absurd rfl hlocate
  | send => exact absurd rfl hsend
  | tenantRate =>
    simp only [Reader.step] at hs
    split at hs <;> cases hs
    exact (Reader.tenantRate_quiet _).2.2.1
  | frame f =>
    simp only [Reader.step] at hs
    split at hs <;> cases hs
    exact Reader.frame_wiring f
  | start | reply | limitClose =>
    simp only [Reader.step] at hs
    split at hs <;> cases hs
    simp [Reader.start, Reader.reply, Reader.limitClose]
  | direct =>
    simp only [Reader.step] at hs
    split at hs <;> cases hs
    simp only [Reader.direct]
    split <;> simp
  | limitError =>
    simp only [Reader.step] at hs
    split at hs <;> cases hs
    simp only [Reader.limitError]
    split <;> simp
  | idleTimeout =>
    simp only [Reader.step] at hs
    split at hs
    · split at hs <;> cases hs
      simp [Reader.idleTimeout]
    · cases hs

/-- A supervisor changes whether its connection listens only by cancelling the fanout. -/
theorem turns_supervise {a : SuperviseAct} (hs : Supervise.step w i c a = some r) :
    Turns w r.1 i (.ws c) (.supervise a) (.ws r.2) := by
  rcases supervise_fanout hs with ⟨he, hfan⟩ | ⟨-, hwait, hcancelled⟩
  · have hlistens : r.2.listens = c.listens := by
      unfold Session.listens
      rw [hfan]
      cases c.fanout <;> try rfl
      -- without a fanout only a set-up listens, and it is over
      rcases supervise_rank hs with ⟨h1, h2⟩ | ⟨h1, h2, -⟩
      · revert h1 h2
        cases c.stage <;> cases r.2.stage <;> simp [Stage.rank]
      · rw [h1, h2]
    have h : r.2.hearing = c.hearing := hearing_kept (Supervise.step_framed hs).seat hlistens
    exact .rest h (acts_same h (by rintro ⟨⟩) (by rintro ⟨⟩) (by rintro ⟨⟩)) he
  · have hbefore : c.hearing = some (c.topicKey, c.chan) :=
      hearing_of_listens (by rw [Session.listens, hwait])
    have hafter : r.2.hearing = none := hearing_of_deaf (by rw [Session.listens, hcancelled])
    refine .dropped c.topicKey c.chan hbefore hafter ?_ ?_
    · simp only [Task.hubActs, Task.hearing, hbefore, hafter]
    · exact wiring_cancelled hs hwait hcancelled

theorem turns_reader {a : ReaderAct} (hs : Reader.step w i c a = some r) :
    Turns w r.1 i (.ws c) (.reader a) (.ws r.2) := by
  have hk := (Reader.step_framed hs).kept
  have h : r.2.hearing = c.hearing := hearing_kept hk.seat (listens_kept hk.fanout hk.stage)
  by_cases hsend : a = .send
  · subst hsend
    simp only [Reader.step] at hs
    split at hs <;> cases hs
    rename_i topicKey ch encoded hsending
    have haim : (Task.ws c).publication i = some (ch, ⟨topicKey, c.identity, .ws i c.frames, encoded⟩) := by
      simp only [Task.publication, hsending]
    refine .published ch _ haim h ?_ ?_
    · simp only [Task.hubActs, haim, Option.toList_some, List.map_cons, List.map_nil]
    · rw [← wiring_publish]
      simp only [Reader.send]
      split <;> rfl
  · have hacts : (Task.ws c).hubActs w i (.reader a) (.ws r.2) = [] := by
      refine acts_same h ?_ (by rintro ⟨⟩) (by rintro ⟨⟩)
      rintro ⟨⟩
      exact hsend rfl
    by_cases hlocate : a = .locate
    · subst hlocate
      simp only [Reader.step] at hs
      split at hs <;> cases hs
      revert h hacts
      simp only [Reader.locate]
      split
      · rename_i hl
        intro h hacts
        rcases created_of_topicSender hl with he | he
        · exact .rest h hacts he
        · exact .created _ h hacts he
      · intro h hacts
        exact .rest h hacts rfl
    · exact .rest h hacts (wiring_reader hs hlocate hsend)

theorem turns_call {d : Call E} {s : World E × Call E} {a : CallAct} (hs : Api.step w i d a = some s) :
    Turns w s.1 i (.http d) (.call a) (.http s.2) := by
  have h : (Task.http s.2).hearing = (Task.http d).hearing := rfl
  cases a with
  | send =>
    simp only [Api.step] at hs
    split at hs <;> cases hs
    rename_i topicKey ch encoded hsending
    have haim : (Task.http d).publication i = some (ch, ⟨topicKey, d.identity, .http i, encoded⟩) := by
      simp only [Task.publication, hsending]
    refine .published ch _ haim h ?_ (wiring_publish w ch _)
    simp only [Task.hubActs, haim, Option.toList_some, List.map_cons, List.map_nil]
  | locate =>
    simp only [Api.step] at hs
    split at hs <;> cases hs
    simp only [Api.locate]
    split
    · rename_i hl
      rcases created_of_topicSender hl with he | he
      · exact .rest rfl rfl he
      · exact .created _ rfl rfl he
    · exact .rest rfl rfl rfl
  | resolve =>
    simp only [Api.step] at hs
    split at hs <;> cases hs
    exact .rest rfl rfl rfl
  | direct =>
    simp only [Api.step] at hs
    split at hs <;> cases hs
    refine .rest rfl rfl ?_
    simp only [Api.deliver]
    split <;> simp

theorem turns_step {l l' : Task E} {a : TaskAct} {w' : World E} (hc : ∀ c, l = .ws c → c.Shaped)
    (h : Task.step w i l a = some (w', l')) : Turns w w' i l a l' := by
  cases l with
  | http d =>
    obtain ⟨d', b, rfl, rfl, hs⟩ := step_http h
    exact turns_call hs
  | ws c =>
    obtain ⟨c', rfl, hs⟩ := step_ws h
    cases a with
    | handshake b =>
      have hf := Handshake.step_framed hs
      have hlistens : c'.listens = c.listens := by
        unfold Session.listens
        rw [hf.fanout]
        rcases Handshake.stage_step hs with ⟨h1, h2⟩ | ⟨he, -⟩
        · cases c.fanout <;> try rfl
          revert h1 h2
          cases c.stage <;> cases c'.stage <;> simp [Stage.isHandshake]
        · rw [he]
      have h : c'.hearing = c.hearing := hearing_kept hf.seat hlistens
      exact .rest h (acts_same h (by rintro ⟨⟩) (by rintro ⟨⟩) (by rintro ⟨⟩)) hf.wiring
    | setup b => exact turns_setup (hc c rfl) hs
    | writer b =>
      have hf := Writer.step_framed hs
      have h : c'.hearing = c.hearing := hearing_kept hf.seat (listens_kept hf.fanout hf.stage)
      exact .rest h (acts_same h (by rintro ⟨⟩) (by rintro ⟨⟩) (by rintro ⟨⟩)) hf.wiring
    | fanout b => exact turns_fanout hs
    | reader b => exact turns_reader hs
    | supervise b => exact turns_supervise hs
    | call b => cases hs

/-! ### What a channel keeps -/

/-- Every channel keeps the last `n` messages. -/
def Wiring.Rings (g : Wiring E) (n : ℕ) : Prop :=
  ∀ (ch : ℕ) (cl : Channel E), g.channels[ch]? = some cl → cl.chan.cap = n

theorem Wiring.Rings.onChannel {g : Wiring E} {n : ℕ} (h : g.Rings n) (ch : ℕ)
    {f : Broadcast (Sent E) → Broadcast (Sent E)}
    (hf : ∀ cl, g.channels[ch]? = some cl → (f cl.chan).cap = cl.chan.cap) : (g.onChannel ch f).Rings n := by
  intro k cl hcl
  rw [Wiring.onChannel, List.getElem?_modify] at hcl
  obtain ⟨cl₀, hcl₀, rfl⟩ := Option.map_eq_some_iff.mp hcl
  by_cases hk : ch = k
  · subst hk
    rw [if_pos rfl]
    exact (hf cl₀ hcl₀).trans (h ch cl₀ hcl₀)
  · rw [if_neg hk]
    exact h k cl₀ hcl₀

theorem cap_recv {b b' : Broadcast (Sent E)} {o : Recv (Sent E)} (h : b.recv i = some (o, b')) :
    b'.cap = b.cap := by
  unfold Broadcast.recv at h
  split at h
  · cases h
  · split at h
    · cases h
      rfl
    · split at h <;> cases h
      rfl

theorem rings_turn {l l' : Task E} {a : TaskAct} {w' : World E} {n : ℕ} (h : w.wiring.Rings n)
    (hn : Nat.nextPowerOfTwo w.app.config.topicChannelCapacity = n) (ht : Turns w w' i l a l') :
    w'.wiring.Rings n := by
  cases ht with
  | rest same acts e => rwa [e]
  | created key same acts e =>
    rw [e]
    intro k cl hcl
    rcases getElem?_concat_cases hcl with hcl | ⟨-, rfl⟩
    · exact h k cl hcl
    · exact hn
  | published ch q aim same acts e =>
    rw [e]
    refine h.onChannel ch ?_
    intro cl _
    unfold Wiring.sendTo
    split
    · rename_i hsend
      unfold Broadcast.send at hsend
      split at hsend <;> cases hsend
      rfl
    · rfl
  | subscribed key ch located before after acts e =>
    rw [e]
    exact h.onChannel ch fun cl _ => rfl
  | dropped key ch before after acts e =>
    rw [e]
    exact h.onChannel ch fun cl _ => rfl
  | received key ch cl o b seat same found recv acts e =>
    rw [e]
    refine h.onChannel ch ?_
    intro cl' hcl'
    have hfound : w.wiring.channels[ch]? = some cl := found
    rw [hfound, Option.some.injEq] at hcl'
    subst hcl'
    exact cap_recv recv

theorem rings_run {ok : ServerState E → ServerAct E → Prop} (h : Runs config ok p) :
    p.shared.wiring.Rings (Nat.nextPowerOfTwo config.topicChannelCapacity) := by
  refine (Prog.rely_guarantee
    (J := fun _ w => w.wiring.Rings (Nat.nextPowerOfTwo config.topicChannelCapacity))
    (K := fun _ _ _ => True) ?_ ?_ ?_ ?_ ?_ h).shared
  · refine ⟨?_, fun _ _ _ => trivial⟩
    intro ch cl hcl
    simp [boot, World.init, World.wiring] at hcl
  · intro p request _ hI
    exact ⟨hI.shared, trivial⟩
  · intro p i l a w' l' hr hI _ hl (hs : Task.step p.shared i l a = some (w', l'))
    have hconfig : p.shared.app.config = config := (booked_run hr).shared.configured
    have hc : ∀ c, l = .ws c → c.Shaped := by
      intro c hc
      rw [hc] at hl
      exact shaped_run hr (session_eq_some.mpr hl)
    exact ⟨rings_turn hI.shared (by rw [hconfig]) (turns_step hc hs), trivial⟩
  · intro _ _ _ _ _ _ _ _ _ _ _ _ _ _ _
    trivial
  · intro p e w' hI he
    cases he
    exact ⟨hI.shared, fun _ _ _ => trivial⟩

/-! ### A step of the server at the hub -/

/-- In every run the channel of a connection that listens is the one of its key, and holds its receiver. -/
theorem hearing_run {ok : ServerState E → ServerAct E → Prop} (h : Runs config ok p) {l : Task E}
    {key : String} {ch : ℕ} (hl : p.threads[i]? = some l) (hseat : l.hearing = some (key, ch)) :
    p.shared.wiring.keyOf ch = some key ∧ ∃ m, p.shared.wiring.pending ch i = some m := by
  cases l with
  | http d => cases hseat
  | ws c =>
    have hc := session_eq_some.mpr hl
    simp only [Task.hearing, Session.hearing, Option.ite_none_right_eq_some, Option.some.injEq,
      Prod.mk.injEq] at hseat
    obtain ⟨hlistens, rfl, rfl⟩ := hseat
    have hcursor := (cursor_run h).session i c hc
    have hrank := listens_rank (shaped_run h hc) hlistens
    obtain ⟨m, hm, -⟩ := hcursor.live hlistens
    exact ⟨hcursor.key (by omega), m, hm⟩

/-- The hub after a step of task `i`, where the other members are what the channels make of them. -/
theorem hub_set {l l' : Task E} {w' : World E} (hl : p.threads[i]? = some l) (j : ℕ) :
    ServerState.hub ⟨w', p.threads.set i l'⟩ j =
      if j = i then l'.hearing.bind (w'.wiring.member i)
      else (p.threads[j]?.bind Task.hearing).bind (w'.wiring.member j) := by
  have hlt := (List.getElem?_eq_some_iff.mp hl).1
  unfold ServerState.hub
  by_cases hj : j = i
  · subst hj
    simp only [List.getElem?_set_self hlt, Option.bind_some, if_true]
  · simp only [List.getElem?_set_ne (Ne.symm hj), if_neg hj]

theorem hub_self {l : Task E} (hl : p.threads[i]? = some l) :
    p.hub i = l.hearing.bind (p.shared.wiring.member i) := by
  unfold ServerState.hub
  rw [hl, Option.bind_some]

/-- The members that a step does not touch. -/
theorem member_rx {g g' : Wiring E} {j : ℕ} (h : RxStep g i g') (hj : j ≠ i) (seat : String × ℕ) :
    g'.member j seat = g.member j seat := by
  obtain ⟨ch, f, rfl, others⟩ := h
  unfold Wiring.member
  by_cases hch : ch = seat.2
  · subst hch
    rw [others j hj]
  · rw [Wiring.pending_onChannel, if_neg hch]

theorem member_create (g : Wiring E) (key : String) (cap j : ℕ) (seat : String × ℕ) :
    (g.create key cap).member j seat = g.member j seat := by
  rw [Wiring.member, Wiring.pending_create, Wiring.member]

/-- A publish on the channel of its key is heard by the members of the key. -/
theorem member_publish {g : Wiring E} {ch ch' j : ℕ} {q : Publish E} {key : String} (hg : g.Inverse)
    (haim : g.keyOf ch = some q.key) (hkey : g.keyOf ch' = some key) :
    (g.publish ch q).member j (key, ch') = (g.member j (key, ch')).map (·.hear q.key q.encoded) := by
  have hsame : ch = ch' ↔ key = q.key := by
    constructor
    · rintro rfl
      exact Option.some.inj (hkey.symm.trans haim)
    · rintro rfl
      exact Option.some.inj (((hg _ _).mpr haim).symm.trans ((hg _ _).mpr hkey))
  simp only [Wiring.member, Wiring.pending_publish, Option.map_map]
  by_cases hch : ch = ch'
  · have hk := hsame.mp hch
    rw [if_pos hch, Option.map_map]
    refine congrFun (congrArg Option.map ?_) _
    funext l
    simp [Member.hear, hk]
  · have hk : ¬ key = q.key := fun e => hch (hsame.mpr e)
    rw [if_neg hch]
    refine congrFun (congrArg Option.map ?_) _
    funext l
    simp [Member.hear, hk]

/-- A step of a task is a path of the hub: nothing, or the one act that it is. -/
theorem hub_step {ok : ServerState E → ServerAct E → Prop} (h : Runs config ok p) {l l' : Task E}
    {a : TaskAct} {w' : World E} (hl : p.threads[i]? = some l)
    (hs : Task.step p.shared i l a = some (w', l')) :
    Path (Hub.Step (Nat.nextPowerOfTwo config.topicChannelCapacity)) p.hub (l.hubActs p.shared i a l')
      (ServerState.hub ⟨w', p.threads.set i l'⟩) := by
  have hshaped : ∀ c, l = .ws c → c.Shaped := by
    intro c hc
    rw [hc] at hl
    exact shaped_run h (session_eq_some.mpr hl)
  have hwired := wired_run h
  -- where nobody's pending messages change, the hub is the same
  have hsame : l'.hearing = l.hearing → (∀ j seat, w'.wiring.member j seat = p.shared.wiring.member j seat) →
      ServerState.hub ⟨w', p.threads.set i l'⟩ = p.hub := by
    intro hkept hmember
    funext j
    rw [hub_set hl]
    split
    · rename_i hj
      subst hj
      rw [hub_self hl, hkept]
      refine congrArg (Option.bind _) ?_
      funext seat
      exact hmember j seat
    · refine congrArg (Option.bind _) ?_
      funext seat
      exact hmember j seat
  have hothers : ∀ m, RxStep p.shared.wiring i w'.wiring → l'.hearing.bind (w'.wiring.member i) = m →
      ServerState.hub ⟨w', p.threads.set i l'⟩ = Function.update p.hub i m := by
    intro m hrx hm
    funext j
    rw [hub_set hl]
    split
    · rename_i hj
      subst hj
      rw [Function.update_self, hm]
    · rename_i hj
      rw [Function.update_of_ne hj]
      refine congrArg (Option.bind _) ?_
      funext seat
      exact member_rx hrx hj seat
  cases turns_step hshaped hs with
  | rest same acts e =>
    rw [acts, hsame same fun j seat => by rw [e]]
    exact .nil
  | created key same acts e =>
    rw [acts, hsame same fun j seat => by rw [e, member_create]]
    exact .nil
  | published ch q aim same acts e =>
    have haim := hwired.each i l hl q.key ch (aims_of_publication aim)
    have hheard : ∀ (j : ℕ) (l₀ : Task E), p.threads[j]? = some l₀ → l₀.hearing.bind (w'.wiring.member j) =
        (l₀.hearing.bind (p.shared.wiring.member j)).map (·.hear q.key q.encoded) := by
      intro j l₀ hl₀
      cases hseat : l₀.hearing with
      | none => rfl
      | some seat =>
        obtain ⟨key, ch'⟩ := seat
        rw [e]
        exact member_publish hwired.shared haim (hearing_run h hl₀ hseat).1
    have hhub : ServerState.hub ⟨w', p.threads.set i l'⟩ =
        fun j => (p.hub j).map (·.hear q.key q.encoded) := by
      funext j
      rw [hub_set hl]
      split
      · rename_i hj
        subst hj
        rw [same, hub_self hl]
        exact hheard j l hl
      · unfold ServerState.hub
        cases hj : p.threads[j]? with
        | none => rfl
        | some l₀ => exact hheard j l₀ hj
    rw [acts, hhub]
    exact .single (.publish q.key q.encoded)
  | subscribed key ch located before after acts e =>
    obtain ⟨c, rfl, rfl, hrank⟩ := located
    have hkey := ((cursor_run h).session i c (session_eq_some.mpr hl)).key hrank
    obtain ⟨cl, hcl, -⟩ := Option.map_eq_some_iff.mp hkey
    have hrx : RxStep p.shared.wiring i w'.wiring := by
      rw [e]
      exact rxStep_subscribe p.shared i c.chan
    have hnew : l'.hearing.bind (w'.wiring.member i) = some ⟨key, []⟩ := by
      have hpend := Wiring.pending_onChannel p.shared.wiring c.chan c.chan i (·.subscribe i)
      rw [if_pos rfl, hcl, Option.bind_some, Broadcast.pending_subscribe, if_pos rfl] at hpend
      rw [after, Option.bind_some, Wiring.member, e, hpend]
      rfl
    have habsent : p.hub i = none := by
      rw [hub_self hl, before]
      rfl
    rw [acts, hothers _ hrx hnew]
    exact .single (.join i key habsent)
  | dropped key ch before after acts e =>
    have hrx : RxStep p.shared.wiring i w'.wiring := by
      rw [e]
      exact rxStep_dropRx p.shared i ch
    have hgone : l'.hearing.bind (w'.wiring.member i) = none := by
      rw [after]
      rfl
    obtain ⟨m, hm⟩ := (hearing_run h hl before).2
    have hmember : p.hub i = some ⟨key, m.map (·.bytes)⟩ := by
      rw [hub_self hl, before, Option.bind_some, Wiring.member, hm]
      rfl
    rw [acts, hothers _ hrx hgone]
    exact .single (.leave i _ hmember)
  | received key ch cl o b seat same found recv acts e =>
    have hrx : RxStep p.shared.wiring i w'.wiring := by
      rw [e]
      exact rxStep_recv found recv
    obtain ⟨m, hm⟩ := (hearing_run h hl seat).2
    have hfound : p.shared.wiring.channels[ch]? = some cl := found
    have hpend : cl.chan.pending i = some m := by rwa [Wiring.pending, hfound] at hm
    obtain ⟨rest, hoffer, hrest⟩ := Hub.offer_of_recv hpend recv
    have hmember : p.hub i = some ⟨key, m.map (·.bytes)⟩ := by
      rw [hub_self hl, seat, Option.bind_some, Wiring.member, hm]
      rfl
    have hnow : l'.hearing.bind (w'.wiring.member i) = some ⟨key, rest.map (·.bytes)⟩ := by
      have hafter := Wiring.pending_onChannel p.shared.wiring ch ch i (fun _ => b)
      rw [if_pos rfl, hfound, Option.bind_some, hrest] at hafter
      rw [same, seat, Option.bind_some, Wiring.member, e, hafter]
      rfl
    have hoffered : Hub.offer (Nat.nextPowerOfTwo config.topicChannelCapacity) (m.map (·.bytes)) =
        some (o.map (·.bytes), rest.map (·.bytes)) := by
      rw [← rings_run h ch cl hfound, Hub.offer_map, hoffer]
      rfl
    rw [acts, hothers _ hrx hnow]
    exact .single (.take i _ _ _ hmember hoffered)

/-! ### Every run -/

/-- The runs of the server with what they are at the hub. -/
def HubRuns (config : Config) (s : ServerState E × List (HubAct ℕ String E.Bytes)) : Prop :=
  LogReach (server E).next (fun p a p' => (journal Task.hubActs p a p').map Prod.snd) always (boot E config) s

theorem hub_run {s : ServerState E × List (HubAct ℕ String E.Bytes)} (h : HubRuns config s) :
    Path (Hub.Step (Nat.nextPowerOfTwo config.topicChannelCapacity)) (fun _ => none) s.2 s.1.hub := by
  refine LogReach.refines ServerState.hub ?_ h
  intro p a p' hr _ hs
  cases a with
  | spawn request =>
    cases hs
    have hsame : ServerState.hub ⟨p.shared, p.threads ++ [(server E).start request]⟩ = p.hub := by
      funext j
      unfold ServerState.hub
      cases hj : (p.threads ++ [(server E).start request])[j]? with
      | none =>
        have hle := List.getElem?_eq_none_iff.mp hj
        rw [List.length_append] at hle
        rw [List.getElem?_eq_none (by omega)]
      | some l =>
        rcases getElem?_concat_cases hj with hold | ⟨rfl, rfl⟩
        · rw [hold]
        · rw [List.getElem?_eq_none (Nat.le_refl _)]
          cases request <;> rfl
    rw [hsame]
    exact .nil
  | env d =>
    obtain ⟨w', he, rfl⟩ := Prog.next_env hs
    cases he
    exact .nil
  | run i a =>
    obtain ⟨l, w', l', hl, hstep, rfl⟩ := Prog.next_run hs
    rw [journal_run hl, List.map_map]
    have hid : (Prod.snd ∘ fun e : HubAct ℕ String E.Bytes => (i, e)) = id := rfl
    rw [hid, List.map_id]
    exact hub_step hr hl hstep

/-- What a connection took of the messages on its key after it joined, and what waits for it. -/
structure Caught (after : List (HubAct ℕ String E.Bytes)) (i : ℕ) (key : String) (waiting : List E.Bytes) :
    Prop where
  stayed : ∀ a ∈ after, Hub.moves i a = false
  consumed : Hub.Consumes (Hub.takenBy i after) (Hub.messagesOn key after) waiting
  counted : (Hub.messagesOn key after).length =
    ((Hub.takenBy i after).map Recv.covers).sum + waiting.length
  inOrder : ((Hub.takenBy i after).filterMap Recv.message? ++ waiting).Sublist (Hub.messagesOn key after)

/-- The server refines the hub: every run is one of the hub, and so each connection that listens got every
    message on its key in order, but for those that it was told it missed and those it still has to take. -/
theorem refines_hub {s : ServerState E × List (HubAct ℕ String E.Bytes)} (h : HubRuns config s) :
    Path (Hub.Step (Nat.nextPowerOfTwo config.topicChannelCapacity)) (fun _ => none) s.2 s.1.hub ∧
      ∀ i c, s.1.session i = some c → c.listens = true → ∃ l before after,
        s.1.shared.wiring.pending c.chan i = some l ∧ s.2 = before ++ .join i c.topicKey :: after ∧
        Caught after i c.topicKey (l.map (·.bytes)) := by
  have hpath := hub_run h
  refine ⟨hpath, ?_⟩
  intro i c hc hlistens
  have hl := session_eq_some.mp hc
  have hseat : (Task.ws c).hearing = some (c.topicKey, c.chan) := hearing_of_listens hlistens
  obtain ⟨-, l, hpend⟩ := hearing_run h.reach hl hseat
  have hmember : s.1.hub i = some ⟨c.topicKey, l.map (·.bytes)⟩ := by
    rw [hub_self hl, hseat, Option.bind_some, Wiring.member, hpend]
    rfl
  obtain ⟨before, after, hacts, hno, hcons⟩ := Hub.told hpath hmember
  exact ⟨l, before, after, hpend, hacts, hno, hcons, hcons.count, hcons.sublist⟩

theorem refines_hub_bob : ∃ (p : ServerState Ext.plain) (acts : List (HubAct ℕ String Ext.plain.Bytes)),
    acts.length = 4 ∧ Path (Hub.Step (Nat.nextPowerOfTwo 32)) (fun _ => none) acts p.hub ∧
      ∃ c l before after, p.session 0 = some c ∧ p.shared.wiring.pending c.chan 0 = some l ∧
        acts = before ++ .join 0 c.topicKey :: after ∧ Caught after 0 c.topicKey (l.map (·.bytes)) := by
  obtain ⟨p, acts, h, hcheck⟩ := exec_log_check (server Ext.plain).next
    (fun p a p' => (journal Task.hubActs p a p').map Prod.snd) (fun _ _ => true)
    (boot Ext.plain Config.plain) aliceToBob
    (fun (p : ServerState Ext.plain) acts => decide (acts.length = 4) && (p.session 0).any (·.listens))
    (by decide +kernel)
  obtain ⟨hlen, hany⟩ := Bool.and_eq_true_iff.mp hcheck
  obtain ⟨c, hc, hlistens⟩ := (Option.any_eq_true _ _).mp hany
  have hrun : HubRuns Config.plain (p, acts) := h.mono fun _ _ _ => trivial
  obtain ⟨hpath, hall⟩ := refines_hub hrun
  obtain ⟨l, before, after, hpend, hacts, hcaught⟩ := hall 0 c hc hlistens
  exact ⟨p, acts, of_decide_eq_true hlen, hpath, c, l, before, after, hc, hpend, hacts, hcaught⟩

end WsServer
