import WsServer.Ready
import WsServer.Tenants
import WsServer.Turns

/-! From events to queues. `Worded` says that the bytes a task has in hand encode an event it may write,
    `Puts` names everything that a step can put into a client queue. Together they tell for each queued
    item and each publish which event it is and who is behind it. -/

namespace WsServer

open Lib

variable {E : Ext} {w : World E} {i j : ℕ} {c : Session E} {r : World E × Session E} {config : Config}

def Task.hand : Task E → Option (Hand E)
  | .ws c => c.reader.hand
  | .http d => d.pc.hand

def Task.identity : Task E → AuthIdentity
  | .ws c => c.identity
  | .http d => d.identity

def Task.Writes : Task E → Hand E → Prop
  | .ws c => c.Writes
  | .http d => d.Writes

/-- What the task has in hand is its own writing. -/
def Task.Worded (l : Task E) : Prop := ∀ hand, l.hand = some hand → l.Writes hand

theorem Task.Worded.empty {l : Task E} (h : l.hand = none) : l.Worded := by
  intro hand hh
  rw [h] at hh
  cases hh

/-- The set-up comes before the reader. -/
theorem setup_reader {a : SetupAct} (hc : c.Shaped) (h : Setup.step w i c a = some r) :
    c.reader = .off := by
  cases a <;> simp only [Setup.step, Option.ite_none_right_eq_some] at h <;> obtain ⟨hst, -⟩ := h <;>
    exact hc.reader (by rw [hst]; decide)

theorem topicKey_kept {a : TaskAct} (hc : c.Shaped) (hr : c.reader ≠ .off)
    (h : Session.step w i c a = some r) : r.2.topicKey = c.topicKey := by
  cases a with
  | handshake b => exact congrArg Seat.topicKey (Handshake.step_framed h).seat
  | setup b => exact (hr (setup_reader hc h)).elim
  | writer b => exact congrArg Seat.topicKey (Writer.step_framed h).seat
  | fanout b => exact congrArg Seat.topicKey (Fanout.step_framed h).seat
  | reader b => exact congrArg Seat.topicKey (Reader.step_framed h).kept.seat
  | supervise b => exact congrArg Seat.topicKey (Supervise.step_framed h).seat
  | call b => cases h

theorem worded_reader {a : ReaderAct} (hc : (Task.ws c).Worded) (h : Reader.step w i c a = some r) :
    (Task.ws r.2).Worded := by
  have hk := (Reader.step_framed h).kept
  have hid : r.2.identity = c.identity := congrArg Ticket.identity hk.ticket
  have hkey : r.2.topicKey = c.topicKey := congrArg Seat.topicKey hk.seat
  intro hand hh
  simp only [Task.hand] at hh
  have hturn := reader_turn h
  generalize hpc : r.2.reader = pc at hturn hh
  cases hturn with
  | empty hnone => rw [hnone] at hh; cases hh
  | written hw =>
    rw [hand_readerPc, Option.some.injEq] at hh
    subst hh
    exact hw.congr hid hkey
  | located hr hs =>
    refine (hc hand ?_).congr hid hkey
    rw [Task.hand, hr]
    exact hh

theorem worded_call {d : Call E} {a : CallAct} {s : World E × Call E} (hd : (Task.http d).Worded)
    (h : Api.step w i d a = some s) : (Task.http s.2).Worded := by
  intro hand hh
  simp only [Task.hand] at hh
  have hturn := call_turn h
  generalize s.2 = d' at hturn hh ⊢
  cases hturn with
  | empty hnone => rw [hnone] at hh; cases hh
  | published hw =>
    cases hh
    cases hw with
    | publish body hb henc => exact .publish body hb henc
  | directed hw =>
    cases hh
    cases hw with
    | direct body hb henc => exact .direct body hb henc
  | located hp hs =>
    cases hh
    have hw : d.Writes _ := hd _ (by rw [Task.hand, hp]; rfl)
    cases hw with
    | publish body hb henc => exact .publish body hb henc

theorem worded_step {l l' : Task E} {a : TaskAct} {w' : World E} (hl : l.Worded)
    (hsh : ∀ c, l = .ws c → c.Shaped) (h : Task.step w i l a = some (w', l')) : l'.Worded := by
  cases l with
  | http d =>
    obtain ⟨d', b, rfl, rfl, hs⟩ := step_http h
    exact worded_call hl hs
  | ws c =>
    obtain ⟨c', rfl, hs⟩ := step_ws h
    by_cases hread : ∃ b, a = .reader b
    · obtain ⟨b, rfl⟩ := hread
      exact worded_reader hl hs
    · rcases session_reader hs (fun b e => hread ⟨b, e⟩) with hr | hr | hr
      · intro hand hh
        by_cases hoff : c.reader = .off
        · rw [Task.hand, hr, hoff] at hh; cases hh
        · refine Session.Writes.congr (hl hand ?_) (identity_kept (hsh c rfl) hoff hs)
            (topicKey_kept (hsh c rfl) hoff hs)
          rw [Task.hand, ← hr]
          exact hh
      · exact .empty (by rw [Task.hand, hr]; rfl)
      · exact .empty (by rw [Task.hand, hr]; rfl)

theorem worded_run {ok : ServerState E → ServerAct E → Prop} {p : ServerState E}
    (h : Runs config ok p) {l : Task E} (hl : p.threads[i]? = some l) : l.Worded := by
  refine (Prog.rely_guarantee (J := fun _ _ => True)
    (K := fun (_ : World E) (_ : ℕ) (l : Task E) => l.Worded)
    ⟨trivial, fun i l hl => by simp [boot] at hl⟩ ?_ ?_
    (fun _ _ _ _ _ _ _ m _ hI _ _ _ hm _ => hI.each _ m hm)
    (fun _ _ _ hI _ => ⟨trivial, fun j m hm => hI.each j m hm⟩) h).each i l hl
  · rintro p (⟨ip, query⟩ | ⟨authorization, request⟩) - -
    · exact ⟨trivial, .empty rfl⟩
    · exact ⟨trivial, .empty rfl⟩
  · intro p i l a w' l' hr hI _ hl hs
    refine ⟨trivial, worded_step (hI.each i l hl) ?_ hs⟩
    rintro c rfl
    exact shaped_run hr (session_eq_some.mpr hl)

/-! ### What gets into a queue -/

/-- What a step of task number `i` may put into queue `j`. -/
inductive Puts (w : World E) (i j : ℕ) : Task E → Item E → Prop
  | ready {c : Session E} {x : Item E} (own : j = i) (hst : c.stage = .registered)
      (hx : c.IsReady x) : Puts w i j (.ws c) x
  | forwarded {c : Session E} {m : Sent E} (own : j = i) (hf : c.fanout = .holding m) :
      Puts w i j (.ws c) ⟨.binary m.bytes, .topic m.seq⟩
  | reply {c : Session E} {encoded : E.Bytes} (own : j = i) (hr : c.reader = .replying encoded) :
      Puts w i j (.ws c) ⟨.binary encoded, .reply⟩
  | limited {c : Session E} {encoded : E.Bytes} (own : j = i)
      (h : encodeServerEvent (E := E) (.error "rate_limited" "message rate limit exceeded") =
        some encoded) : Puts w i j (.ws c) ⟨.binary encoded, .reply⟩
  | control {c : Session E} {x : Item E} (own : j = i) (hx : x.source = .pong ∨ x.source = .close)
      (hmsg : ∀ bytes, x.msg ≠ .binary bytes) : Puts w i j (.ws c) x
  | direct {l : Task E} {target : String} {encoded : E.Bytes}
      (hh : l.hand = some (.direct target encoded))
      (hto : w.directTo target l.identity.tenantId = some j) :
      Puts w i j l ⟨.binary encoded, .direct l.identity⟩

/-- A queue's history stays, gets one item of which `P` holds, or starts. -/
inductive Appends (q q' : Queue (Item E)) (P : Item E → Prop) : Prop
  | same (h : q'.placed = q.placed)
  | put (x : Item E) (hx : P x) (h : q'.placed = q.placed ++ [x])
  | fresh (h : q'.placed = [])

theorem Appends.mem {q q' : Queue (Item E)} {P : Item E → Prop} (h : Appends q q' P) {x : Item E}
    (hx : x ∈ q'.placed) : x ∈ q.placed ∨ P x := by
  cases h with
  | same h => exact Or.inl (by rwa [← h])
  | put y hy h =>
    rw [h] at hx
    rcases List.mem_append.mp hx with hx | hx
    · exact Or.inl hx
    · exact Or.inr (by rw [List.mem_singleton.mp hx]; exact hy)
  | fresh h => rw [h] at hx; cases hx

theorem Appends.last {q q' : Queue (Item E)} {P : Item E → Prop} (h : Appends q q' P) {x : Item E}
    (hx : q'.placed = q.placed ++ [x]) : P x := by
  cases h with
  | same h => rw [h] at hx; simp at hx
  | put y hy h =>
    rw [h] at hx
    have hxy : [y] = [x] := List.append_cancel_left hx
    cases hxy
    exact hy
  | fresh h => rw [h] at hx; simp at hx

theorem World.Grew.appends {w w' : World E} {P : Item E → Prop} (h : World.Grew w w' j P) :
    Appends (w.queues j) (w'.queues j) P := by
  rcases h with h | ⟨x, hx, h⟩
  · exact .same (by rw [h])
  · exact .put x hx (by rw [(Queue.trySend_ok h).2.2])

/-- A send into the own queue. -/
theorem grew_own {w' : World E} {l : Task E} {x : Item E} (hq : w'.queues = (w.trySend i x).2.queues)
    (hx : ∀ j, j = i → Puts w i j l x) : World.Grew w w' j (Puts w i j l) := by
  refine ((World.grew_trySend w i x j).congr hq).mono ?_
  rintro y ⟨hj, rfl⟩
  exact hx j hj

theorem reader_puts {a : ReaderAct} (h : Reader.step w i c a = some r) :
    World.Grew w r.1 j (Puts w i j (.ws c)) := by
  cases a with
  | frame f =>
    simp only [Reader.step] at h
    split at h <;> cases h
    cases f with
    | text t => exact Or.inl (congrFun (Reader.gate_quiet _ _).2.1 j)
    | binary raw => exact Or.inl (congrFun (Reader.gate_quiet _ _).2.1 j)
    | ping payload => exact grew_own rfl fun j hj => .control hj (Or.inl rfl) fun _ => by rintro ⟨⟩
    | pong | close | eof | failure => exact Or.inl rfl
  | tenantRate =>
    simp only [Reader.step] at h
    split at h <;> cases h
    exact Or.inl (congrFun (Reader.tenantRate_quiet _).2.1 j)
  | locate =>
    simp only [Reader.step] at h
    split at h <;> cases h
    unfold Reader.locate
    split
    · rename_i hs
      exact Or.inl (congrFun (World.queues_topicSender hs) j)
    · exact Or.inl rfl
  | send =>
    simp only [Reader.step] at h
    split at h <;> cases h
    simp only [Reader.send]
    split <;> exact Or.inl (congrFun (World.queues_publish w _ _) j)
  | direct =>
    simp only [Reader.step] at h
    split at h <;> cases h
    rename_i target encoded hr
    have hq : (Reader.direct w c target encoded).1.queues =
        (w.sendToClient target c.identity.tenantId encoded c.identity).2.queues := by
      simp only [Reader.direct]
      split <;> rfl
    refine ((World.grew_sendToClient w _ _ _ _ j).congr hq).mono ?_
    rintro x ⟨hto, rfl⟩
    exact .direct (l := .ws c) (by rw [Task.hand, hr]; rfl) hto
  | reply =>
    simp only [Reader.step] at h
    split at h <;> cases h
    rename_i encoded hr
    exact grew_own (World.queues_sendEncoded w i _ _) fun j hj => .reply hj hr
  | limitError =>
    simp only [Reader.step] at h
    split at h <;> cases h
    simp only [Reader.limitError]
    split
    · rename_i encoded henc
      exact grew_own (World.queues_sendEncoded w i _ _) fun j hj => .limited hj henc
    · exact Or.inl rfl
  | limitClose =>
    simp only [Reader.step] at h
    split at h <;> cases h
    exact grew_own rfl fun j hj => .control hj (Or.inr rfl) fun _ => by rintro ⟨⟩
  | idleTimeout =>
    simp only [Reader.step] at h
    split at h
    · split at h <;> cases h
      exact grew_own rfl fun j hj => .control hj (Or.inr rfl) fun _ => by rintro ⟨⟩
    · cases h
  | start =>
    simp only [Reader.step] at h
    split at h <;> cases h
    exact Or.inl rfl

theorem call_puts {d : Call E} {a : CallAct} {s : World E × Call E} (h : Api.step w i d a = some s) :
    World.Grew w s.1 j (Puts w i j (.http d)) := by
  cases a with
  | direct =>
    simp only [Api.step] at h
    split at h <;> cases h
    rename_i target encoded hp
    have hq : (Api.deliver w d target encoded).1.queues =
        (w.sendToClient target d.identity.tenantId encoded d.identity).2.queues := by
      simp only [Api.deliver]
      split <;> rfl
    refine ((World.grew_sendToClient w _ _ _ _ j).congr hq).mono ?_
    rintro x ⟨hto, rfl⟩
    exact .direct (l := .http d) (by rw [Task.hand, hp]; rfl) hto
  | resolve | locate | send =>
    refine ((Api.step_framed h).queues j).mono ?_
    rintro x ⟨ht, -⟩
    cases ht

theorem setup_puts {a : SetupAct} (h : Setup.step w i c a = some r) :
    Appends (w.queues j) (r.1.queues j) (Puts w i j (.ws c)) := by
  by_cases hj : j = i
  · subst hj
    cases a <;> simp only [Setup.step, Option.ite_none_right_eq_some, Option.some.injEq] at h <;>
      obtain ⟨hst, rfl⟩ := h
    case openQueue =>
      simp only [Setup.openQueue]
      split
      · exact .same rfl
      · exact .fresh (by rw [World.queues_setQueue, Function.update_self]; rfl)
    case locate =>
      unfold Setup.locate
      split
      · rename_i hl
        exact .same (by rw [World.queues_topicSender hl])
      · exact .same (by rw [World.queues_closeQueue, Function.update_self]; rfl)
    case ready =>
      unfold Setup.ready
      split
      · rename_i encoded henc
        have hgrew : World.Grew w (w.sendEncoded j encoded .ready).2 j (Puts w j j (.ws c)) :=
          grew_own (World.queues_sendEncoded w j _ _) fun k hk => .ready hk hst ⟨encoded, henc, rfl⟩
        exact hgrew.appends
      · exact .same (by rw [World.queues_closeQueue, Function.update_self]; rfl)
    all_goals exact .same rfl
  · exact .same (by rw [(Setup.step_framed h).queues j hj])

theorem fanout_puts {a : FanoutAct} (h : Fanout.step w i c a = some r) :
    World.Grew w r.1 j (Puts w i j (.ws c)) := by
  cases a with
  | recv =>
    simp only [Fanout.step] at h
    split at h
    · simp only [Fanout.recv] at h
      split at h
      · cases h
      · split at h <;> cases h <;> exact Or.inl rfl
    · cases h
  | forward =>
    simp only [Fanout.step] at h
    split at h
    · rename_i m hm
      cases h
      have hq : (Fanout.forward w i c m).1.queues =
          (w.trySend i ⟨.binary m.bytes, .topic m.seq⟩).2.queues := by
        rw [← World.queues_sendEncoded]
        simp only [Fanout.forward]
        split <;> rfl
      exact grew_own hq fun k hk => .forwarded hk hm
    · cases h

/-- Whatever comes into a queue was put there by the task that stepped. -/
theorem step_puts {l l' : Task E} {a : TaskAct} {w' : World E}
    (h : Task.step w i l a = some (w', l')) : Appends (w.queues j) (w'.queues j) (Puts w i j l) := by
  cases l with
  | http d =>
    obtain ⟨d', b, rfl, rfl, hs⟩ := step_http h
    exact (call_puts hs).appends
  | ws c =>
    obtain ⟨c', rfl, hs⟩ := step_ws h
    have hquiet : (∀ k, k ≠ i → w'.queues k = w.queues k) →
        (w'.queues i).placed = (w.queues i).placed →
        Appends (w.queues j) (w'.queues j) (Puts w i j (.ws c)) := by
      intro hothers hown
      by_cases hj : j = i
      · subst hj; exact .same hown
      · exact .same (by rw [hothers j hj])
    cases a with
    | handshake b => exact .same (by rw [(Handshake.step_framed hs).queues])
    | setup b => exact setup_puts hs
    | writer b => exact hquiet (Writer.step_framed hs).queues (Writer.step_framed hs).placed
    | supervise b => exact hquiet (Supervise.step_framed hs).queues (Supervise.step_framed hs).placed
    | reader b => exact (reader_puts hs).appends
    | fanout b => exact (fanout_puts hs).appends
    | call b => cases hs

end WsServer
