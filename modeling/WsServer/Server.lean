import Mathlib.Data.Rat.Floor
import WsServer.Api
import WsServer.Lib.Threads

/-! The server as a concurrent program: requests of `/ws`, `/api/publish` and `/api/direct` over the
    shared `World`, interleaved one atomic step at a time, with a clock that only moves forward. -/

namespace WsServer

open Lib

/-- A request of the router with what it reads of the request. -/
inductive Request (E : Ext) where
  | ws (ip : IpAddr) (query : WsQuery)
  | api (authorization : Option String) (request : ApiRequest E.Value)

inductive Task (E : Ext) where
  | ws (c : Session E)
  | http (c : Call E)

inductive TaskAct where
  | handshake (a : HandshakeAct)
  | setup (a : SetupAct)
  | writer (a : WriterAct)
  | fanout (a : FanoutAct)
  | reader (a : ReaderAct)
  | supervise (a : SuperviseAct)
  | call (a : CallAct)

variable {E : Ext}

def Task.start : Request E → Task E
  | .ws ip query => .ws (Session.arrive ip query)
  | .api authorization request => .http (Call.arrive authorization request)

/-- One step of a WebSocket request. -/
def Session.step (w : World E) (i : ℕ) (c : Session E) : TaskAct → Option (World E × Session E)
  | .handshake a => Handshake.step w c a
  | .setup a => Setup.step w i c a
  | .writer a => Writer.step w i c a
  | .fanout a => Fanout.step w i c a
  | .reader a => Reader.step w i c a
  | .supervise a => Supervise.step w i c a
  | .call _ => none

def Task.step (w : World E) (i : ℕ) : Task E → TaskAct → Option (World E × Task E)
  | .ws c, a => (Session.step w i c a).map fun r => (r.1, .ws r.2)
  | .http c, .call a => (Api.step w i c a).map fun r => (r.1, .http r.2)
  | .http _, _ => none

/-- The server; the environment lets `d` nanoseconds pass. -/
def server (E : Ext) : Prog (World E) (Task E) (Request E) TaskAct ℕ :=
  { start := Task.start
    step := Task.step
    env := fun w d => some { w with now := w.now + d } }

/-- A state of the server: the shared world and every request so far. -/
abbrev ServerState (E : Ext) := Pool (World E) (Task E)

/-- What can happen next: a request arrives, a task steps, time passes. -/
abbrev ServerAct (E : Ext) := Act (Request E) TaskAct ℕ

/-- The server that `AppState::new` makes. -/
def boot (E : Ext) (config : Config) : ServerState E :=
  { shared := World.init E config, threads := [] }

/-- The WebSocket request number `i`. -/
def ServerState.session (p : ServerState E) (i : ℕ) : Option (Session E) :=
  match p.threads[i]? with
  | some (.ws c) => some c
  | _ => none

/-- The HTTP request number `i`. -/
def ServerState.call (p : ServerState E) (i : ℕ) : Option (Call E) :=
  match p.threads[i]? with
  | some (.http c) => some c
  | _ => none

/-- The states that a run from `boot` reaches when every step meets `ok`. -/
def Runs (config : Config) (ok : ServerState E → ServerAct E → Prop) (p : ServerState E) : Prop :=
  Reach (server E).next ok (boot E config) p

/-- Play a list of actions from `boot`, under a decidable side condition. -/
def play (config : Config) (ok : ServerState E → ServerAct E → Bool) (as : List (ServerAct E)) :
    Option (ServerState E) := exec (server E).next ok (boot E config) as

theorem play_check (config : Config) (ok : ServerState E → ServerAct E → Bool)
    (as : List (ServerAct E)) (check : ServerState E → Bool)
    (h : (play config ok as).map check = some true) :
    ∃ p, Runs config (fun p a => ok p a = true) p ∧ check p = true := exec_check h

theorem session_eq_some {p : ServerState E} {i : ℕ} {c : Session E} :
    p.session i = some c ↔ p.threads[i]? = some (.ws c) := by
  unfold ServerState.session
  split <;> simp_all

theorem call_eq_some {p : ServerState E} {i : ℕ} {c : Call E} :
    p.call i = some c ↔ p.threads[i]? = some (.http c) := by
  unfold ServerState.call
  split <;> simp_all

theorem step_ws {w w' : World E} {i : ℕ} {c : Session E} {l' : Task E} {a : TaskAct}
    (h : Task.step w i (.ws c) a = some (w', l')) :
    ∃ c', l' = .ws c' ∧ Session.step w i c a = some (w', c') := by
  simp only [Task.step, Option.map_eq_some_iff] at h
  obtain ⟨⟨v, c'⟩, hs, he⟩ := h
  rw [Prod.mk.injEq] at he
  obtain ⟨rfl, rfl⟩ := he
  exact ⟨c', rfl, hs⟩

theorem step_http {w w' : World E} {i : ℕ} {c : Call E} {l' : Task E} {a : TaskAct}
    (h : Task.step w i (.http c) a = some (w', l')) :
    ∃ c' b, l' = .http c' ∧ a = .call b ∧ Api.step w i c b = some (w', c') := by
  cases a with
  | call b =>
    simp only [Task.step, Option.map_eq_some_iff] at h
    obtain ⟨⟨v, c'⟩, hs, he⟩ := h
    rw [Prod.mk.injEq] at he
    obtain ⟨rfl, rfl⟩ := he
    exact ⟨c', b, rfl, rfl, hs⟩
  | _ => cases h

/-- What a step of the server means to connection `i`. -/
inductive Progress (p p' : ServerState E) (i : ℕ) (c : Session E) : Prop
  | own (a : TaskAct) (c' : Session E) (now : p'.session i = some c')
      (step : Session.step p.shared i c a = some (p'.shared, c'))
  | other (j : ℕ) (l l' : Task E) (a : TaskAct) (ne : i ≠ j) (now : p'.session i = some c)
      (step : Task.step p.shared j l a = some (p'.shared, l'))
  | quiet (t : ℕ) (now : p'.session i = some c) (shared : p'.shared = { p.shared with now := t })

theorem progress {p p' : ServerState E} {a : ServerAct E} (h : (server E).next p a = some p')
    {i : ℕ} {c : Session E} (hc : p.session i = some c) : Progress p p' i c := by
  have hl := session_eq_some.mp hc
  have hlt := (List.getElem?_eq_some_iff.mp hl).1
  cases a with
  | spawn request =>
    rw [Prog.next, Option.some.injEq] at h
    subst h
    refine .quiet p.shared.now (session_eq_some.mpr ?_) rfl
    rw [List.getElem?_append_left hlt]; exact hl
  | env d =>
    obtain ⟨w', hw, rfl⟩ := Prog.next_env h
    cases hw
    exact .quiet _ hc rfl
  | run j b =>
    obtain ⟨l, w', l', hj, hs, rfl⟩ := Prog.next_run h
    by_cases hij : i = j
    · subst hij
      rw [hl, Option.some.injEq] at hj
      subst hj
      obtain ⟨c', rfl, hstep⟩ := step_ws hs
      exact .own b c' (session_eq_some.mpr (List.getElem?_set_self hlt)) hstep
    · refine .other j l l' b hij (session_eq_some.mpr ?_) hs
      rw [List.getElem?_set_ne (Ne.symm hij)]; exact hl

/-! ### Invariants of the connections -/

/-- `J` holds of the number of tasks and the world, `K` of every connection. -/
structure Keeps (J : ℕ → World E → Prop) (K : World E → ℕ → Session E → Prop)
    (p : ServerState E) : Prop where
  shared : J p.threads.length p.shared
  session : ∀ i c, p.session i = some c → K p.shared i c

/-- The rely-guarantee rule where the HTTP calls need no invariant of their own. -/
theorem session_rule {config : Config} {ok : ServerState E → ServerAct E → Prop}
    {J : ℕ → World E → Prop} {K : World E → ℕ → Session E → Prop} {p : ServerState E}
    (init : J 0 (World.init E config))
    (grow : ∀ n w, J n w → J (n + 1) w)
    (arrive : ∀ p ip query, Runs config ok p → Keeps J K p →
      K p.shared p.threads.length (Session.arrive ip query))
    (own : ∀ p i c a r, Runs config ok p → Keeps J K p → ok p (.run i a) → p.session i = some c →
      Session.step p.shared i c a = some r → J p.threads.length r.1 ∧ K r.1 i r.2)
    (http : ∀ p i d a r, Runs config ok p → Keeps J K p → p.call i = some d →
      Api.step p.shared i d a = some r →
      J p.threads.length r.1)
    (other : ∀ p i l a w' l' j c, Runs config ok p → Keeps J K p → ok p (.run i a) → j ≠ i →
      p.threads[i]? = some l → p.session j = some c → Task.step p.shared i l a = some (w', l') →
      K w' j c)
    (tick : ∀ n w t, J n w → J n { w with now := t })
    (tickEach : ∀ w t i c, K w i c → K { w with now := t } i c)
    (h : Runs config ok p) : Keeps J K p := by
  have toKeeps : ∀ {q : ServerState E},
      Holds J (fun w i l => ∀ c, l = Task.ws c → K w i c) q → Keeps J K q := fun hq =>
    ⟨hq.shared, fun i c hc => hq.each i _ (session_eq_some.mp hc) c rfl⟩
  refine toKeeps (Prog.rely_guarantee ?_ ?_ ?_ ?_ ?_ h)
  · -- boot
    exact ⟨init, fun i l hl => by simp [boot] at hl⟩
  · -- start
    rintro p request hr hI
    refine ⟨grow _ _ hI.shared, ?_⟩
    rintro c hc
    cases request with
    | ws ip query => cases hc; exact arrive p ip query hr (toKeeps hI)
    | api authorization request => cases hc
  · -- own
    rintro p i l a w' l' hr hI hok hl hs
    cases l with
    | ws c =>
      obtain ⟨c', rfl, hstep⟩ := step_ws hs
      obtain ⟨hJ, hK⟩ := own p i c a _ hr (toKeeps hI) hok (session_eq_some.mpr hl) hstep
      exact ⟨hJ, by rintro d hd; cases hd; exact hK⟩
    | http d =>
      obtain ⟨d', b, rfl, rfl, hstep⟩ := step_http hs
      exact ⟨http p i d b _ hr (toKeeps hI) (call_eq_some.mpr hl) hstep,
        by rintro c hc; cases hc⟩
  · -- other
    rintro p i l a w' l' j m hr hI hok hne hl hm hs c rfl
    exact other p i l a w' l' j c hr (toKeeps hI) hok hne hl (session_eq_some.mpr hm) hs
  · -- env
    rintro p d w' hI he
    cases he
    exact ⟨tick _ _ _ hI.shared, fun j m hm c hc => tickEach _ _ _ _ (hI.each j m hm c hc)⟩

/-! ### A small instance -/

/-- Exact arithmetic in place of `f64`. -/
instance : F64 ℚ where
  ofU32 n := n.toNat
  asSecs n := n / 1000000000
  decLe := inferInstance

/-- An encoder that keeps the event as it is, a parser that knows one message, and a token library
    that accepts nothing. -/
def Ext.plain : Ext where
  F := ℚ
  f64 := inferInstance
  Value := String
  Bytes := ServerEvent String
  slotSize := 56
  DecodingKey := String
  toVecNamed := some
  fromStr text :=
    if text = "\x7b\"kind\":\"publish\",\"payload\":\"hi\"\x7d" then some (.publish none none "hi")
    else none
  fromSlice _ := none
  fromSecret := id
  fromRsaPem _ := none
  fromEcPem _ := none
  fromEdPem _ := none
  decode _ _ _ _ := .error .other

/-- One message a second for each connection, and no other limit in reach. -/
def Config.plain : Config where
  maxConnections := 10
  clientQueueCapacity := 16
  topicChannelCapacity := 32
  maxTextBytes := 65536
  maxMessagesPerSecond := 1
  messageBurst := 1
  idleTimeout := 5 * 1000000000
  heartbeatInterval := 60 * 1000000000
  jwtSecret := none
  jwtPublicKey := none
  jwtIssuer := none
  ipMaxConcurrent := none
  ipConnectionRate := none
  ipRateBurst := none
  tenantMaxConnections := none
  tenantMaxMessagesPerSecond := none
  tenantMessageBurst := none

/-- The steps of request `i` in order. -/
def steps {E : Ext} (i : ℕ) (as : List TaskAct) : List (ServerAct E) := as.map (.run i)

/-- A handshake from arrival to upgrade, without an IP limiter. -/
def handshakeSteps : List TaskAct :=
  [.handshake (.ipAdmission []), .handshake .globalPermit, .handshake .authenticate,
    .handshake .tenantPermit, .handshake (.upgrade true)]

/-- The set-up up to `register_client`. -/
def registerSteps : List TaskAct :=
  [.setup .accept, .setup .openQueue, .setup .locate, .setup .subscribe, .setup .number,
    .setup .register]

/-- The rest of the set-up. -/
def spawnSteps : List TaskAct :=
  [.setup .ready, .setup .spawnWriter, .setup .spawnFanout, .setup .spawnReader,
    .writer .start, .reader .start]

/-- The client closes, and the supervisor tears down up to the `get` of `unregister_client`. -/
def teardownSteps : List TaskAct :=
  [.reader (.frame .close), .supervise (.select .reader), .supervise (.cancel .writer),
    .supervise (.cancel .fanout), .supervise .join, .supervise .unregisterGet]

end WsServer
