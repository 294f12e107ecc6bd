import WsServer.Permits

/-! The query parameters `client_id` and `tenant_id`. Where there is a verifier nothing reads them: a run
    in which they are erased goes through the same steps, so runs that differ only there agree in all
    the rest. -/

namespace WsServer

open Lib

variable {E : Ext} {w : World E} {i : ℕ} {c : Session E} {config : Config} {p : ServerState E}

/-- The query without `client_id` and `tenant_id`. -/
def WsQuery.blind (query : WsQuery) : WsQuery := { query with clientId := none, tenantId := none }

def Request.blind : Request E → Request E
  | .ws ip query => .ws ip query.blind
  | .api authorization request => .api authorization request

def Session.blind (c : Session E) : Session E := { c with query := c.query.blind }

def Task.blind : Task E → Task E
  | .ws c => .ws c.blind
  | .http d => .http d

/-- An action with the parameters of the request erased. -/
def blindAct : ServerAct E → ServerAct E
  | .spawn request => .spawn request.blind
  | .run i a => .run i a
  | .env d => .env d

/-- A state with the parameters of all requests erased, and everything else kept. -/
def ServerState.blind (p : ServerState E) : ServerState E :=
  { p with threads := p.threads.map Task.blind }

/-- The step of a session, with its parameters erased after it. -/
def blindly (o : Option (World E × Session E)) : Option (World E × Session E) :=
  o.map fun r => (r.1, r.2.blind)

theorem wsIdentity_blind (v : AuthVerifier E) (now : ℕ) (query : WsQuery) :
    wsIdentity (some v) now query.blind = wsIdentity (some v) now query := rfl

/-- A test that does not read the parameters. -/
theorem ite_blind {α β : Type*} {f : α → β} {P Q : Prop} [Decidable P] [Decidable Q] (hPQ : P = Q)
    {x y : α} {x' y' : β} (hx : x' = f x) (hy : y' = f y) :
    (if P then x' else y') = f (if Q then x else y) := by
  subst hPQ
  split
  · exact hx
  · exact hy

theorem handshake_blind {v : AuthVerifier E} (hv : w.app.auth = some v) (a : HandshakeAct) :
    Handshake.step w c.blind a = blindly (Handshake.step w c a) := by
  cases a with
  | ipAdmission order =>
    refine ite_blind rfl ?_ rfl
    unfold Handshake.ipAdmission
    split
    · rfl
    · split
      · dsimp only [Session.blind]
        split <;> rfl
      · rfl
  | globalPermit =>
    refine ite_blind rfl ?_ rfl
    unfold Handshake.globalPermit
    split <;> rfl
  | authenticate =>
    refine ite_blind rfl ?_ rfl
    simp only [Handshake.authenticate, Session.blind, hv, wsIdentity_blind]
    split <;> rfl
  | tenantPermit =>
    refine ite_blind rfl ?_ rfl
    unfold Handshake.tenantPermit
    dsimp only [Session.blind]
    split <;> rfl
  | upgrade succeeds => exact ite_blind rfl rfl rfl
  | countKind | countRejected =>
    simp only [Handshake.step, Session.blind]
    split <;> rfl
  | dropIp | dropGlobal | dropTenant => exact ite_blind rfl rfl rfl

theorem setup_blind (a : SetupAct) : Setup.step w i c.blind a = blindly (Setup.step w i c a) := by
  cases a with
  | openQueue =>
    refine ite_blind rfl ?_ rfl
    unfold Setup.openQueue
    dsimp only
    split <;> rfl
  | locate =>
    refine ite_blind rfl ?_ rfl
    unfold Setup.locate
    dsimp only [Session.blind]
    split <;> rfl
  | ready =>
    refine ite_blind rfl ?_ rfl
    unfold Setup.ready
    dsimp only [Session.blind]
    split <;> rfl
  | accept | subscribe | number | register | spawnWriter | spawnFanout | spawnReader =>
    exact ite_blind rfl rfl rfl

theorem writer_blind (a : WriterAct) : Writer.step w i c.blind a = blindly (Writer.step w i c a) := by
  cases a with
  | start =>
    simp only [Writer.step, Writer.start, Session.blind]
    split
    · split <;> rfl
    · rfl
  | beat =>
    simp only [Writer.step, Session.blind]
    split
    · exact ite_blind rfl rfl rfl
    · rfl
  | pinged succeeds =>
    simp only [Writer.step, Writer.pinged, Session.blind]
    split
    · split <;> rfl
    · rfl
  | pop =>
    simp only [Writer.step, Session.blind]
    split
    · cases (w.queues i).recv <;> rfl
    · rfl
  | wrote succeeds =>
    simp only [Writer.step, Writer.wrote, Session.blind]
    split
    · split <;> rfl
    · rfl

theorem fanout_blind (a : FanoutAct) : Fanout.step w i c.blind a = blindly (Fanout.step w i c a) := by
  cases a with
  | recv =>
    simp only [Fanout.step, Fanout.recv, Session.blind]
    split
    · split
      · rfl
      · split <;> rfl
    · rfl
  | forward =>
    simp only [Fanout.step, Fanout.forward, Session.blind]
    split
    · split <;> rfl
    · rfl

/-- The outcome of a step of the reader, with the parameters erased. -/
def blinded (r : World E × Session E) : World E × Session E := (r.1, r.2.blind)

theorem sendError_blind (v : World E) (now : ℕ) (code message : String) :
    (v, c.blind.sendError now code message) = blinded (v, c.sendError now code message) := by
  simp only [Session.sendError]
  split <;> rfl

theorem gate_blind (tooLarge : Bool) (f : Inbound) :
    Reader.gate w c.blind tooLarge f = blinded (Reader.gate w c tooLarge f) :=
  ite_blind rfl rfl (ite_blind rfl
    (sendError_blind (c := { c with limiter := (c.limiter.allow w.now).2 }) _ _ _ _) rfl)

theorem frame_blind (f : Frame) : Reader.frame w i c.blind f = blinded (Reader.frame w i c f) := by
  cases f with
  | text t => exact gate_blind _ _
  | binary raw => exact gate_blind _ _
  | ping payload | pong | close | eof | failure => rfl

theorem handle_blind (f : Inbound) : Reader.handle w c.blind f = blinded (Reader.handle w c f) := by
  have hevent : ∀ event, Reader.handleClientEvent w c.blind event =
      blinded (Reader.handleClientEvent w c event) := by
    intro event
    cases event with
    | publish topic requestId payload =>
      simp only [Reader.handleClientEvent, Session.blind]
      split
      · rfl
      · exact sendError_blind _ _ _ _
    | direct target requestId payload =>
      simp only [Reader.handleClientEvent, Session.blind]
      split
      · rfl
      · exact sendError_blind _ _ _ _
    | ping requestId payload =>
      simp only [Reader.handleClientEvent]
      split
      · rfl
      · exact sendError_blind _ _ _ _
  cases f with
  | text t =>
    simp only [Reader.handle]
    split
    · exact hevent _
    · exact sendError_blind _ _ _ _
  | binary raw =>
    simp only [Reader.handle]
    split
    · exact hevent _
    · exact sendError_blind _ _ _ _

theorem tenantRate_blind (f : Inbound) :
    Reader.tenantRate w c.blind f = blinded (Reader.tenantRate w c f) :=
  ite_blind rfl (sendError_blind _ _ _ _) (handle_blind f)

theorem direct_blind (target : String) (encoded : E.Bytes) :
    Reader.direct w c.blind target encoded = blinded (Reader.direct w c target encoded) :=
  ite_blind rfl (sendError_blind _ _ _ _) rfl

theorem reader_blind (a : ReaderAct) : Reader.step w i c.blind a = blindly (Reader.step w i c a) := by
  cases a with
  | frame f =>
    simp only [Reader.step, Session.blind]
    split
    · exact congrArg some (frame_blind (c := { c with frames := c.frames + 1 }) f)
    · rfl
  | tenantRate =>
    simp only [Reader.step, Session.blind]
    split
    · exact congrArg some (tenantRate_blind _)
    · rfl
  | locate =>
    simp only [Reader.step, Session.blind]
    split
    · unfold Reader.locate
      split <;> rfl
    · rfl
  | direct =>
    simp only [Reader.step, Session.blind]
    split
    · exact congrArg some (direct_blind _ _)
    · rfl
  | limitError =>
    simp only [Reader.step, Session.blind]
    split
    · unfold Reader.limitError
      split <;> rfl
    · rfl
  | start | send | reply | limitClose =>
    simp only [Reader.step, Session.blind]
    split <;> rfl
  | idleTimeout =>
    simp only [Reader.step, Session.blind]
    split
    · exact ite_blind rfl rfl rfl
    · rfl

theorem supervise_blind (a : SuperviseAct) :
    Supervise.step w i c.blind a = blindly (Supervise.step w i c a) := by
  cases a with
  | select t => exact ite_blind rfl rfl rfl
  | cancel t =>
    simp only [Supervise.step, Session.blind]
    split
    · refine ite_blind rfl ?_ rfl
      cases t <;> simp only [Supervise.cancel] <;> split <;> rfl
    · rfl
  | join =>
    simp only [Supervise.step, Session.blind]
    split
    · exact ite_blind rfl rfl rfl
    · rfl
  | unregisterGet => exact ite_blind rfl rfl rfl
  | unregisterRemove =>
    simp only [Supervise.step, Session.blind]
    split <;> rfl
  | close =>
    simp only [Supervise.step, Session.blind]
    split <;> rfl

/-- A step does not read the parameters. -/
theorem session_blind {v : AuthVerifier E} (hv : w.app.auth = some v) (a : TaskAct) :
    Session.step w i c.blind a = blindly (Session.step w i c a) := by
  cases a with
  | handshake b => exact handshake_blind hv b
  | setup b => exact setup_blind b
  | writer b => exact writer_blind b
  | fanout b => exact fanout_blind b
  | reader b => exact reader_blind b
  | supervise b => exact supervise_blind b
  | call b => rfl

theorem next_blind {v : AuthVerifier E} (hv : p.shared.app.auth = some v) (a : ServerAct E) :
    (server E).next p.blind (blindAct a) = ((server E).next p a).map ServerState.blind := by
  cases a with
  | spawn request =>
    cases request <;> simp [Prog.next, blindAct, ServerState.blind, server, Task.start, Request.blind,
      Task.blind, Session.blind, Session.arrive]
  | env d => rfl
  | run i a =>
    have hget : (p.threads.map Task.blind)[i]? = p.threads[i]?.map Task.blind := List.getElem?_map
    simp only [Prog.next, blindAct, ServerState.blind, hget]
    cases p.threads[i]? with
    | none => rfl
    | some l =>
      have hstep : Task.step p.shared i l.blind a =
          (Task.step p.shared i l a).map fun r => (r.1, r.2.blind) := by
        cases l with
        | ws c =>
          simp only [Task.step, Task.blind, session_blind hv, blindly, Option.map_map]
          rfl
        | http d => cases a <;> simp only [Task.step, Task.blind, Option.map_map] <;> rfl
      simp only [Option.map_some, Option.bind_some, server, hstep, Option.map_map]
      refine congrArg (fun f => Option.map f _) (funext fun r => ?_)
      simp only [Function.comp_apply, ServerState.blind, List.map_set]

/-- Runs whose requests differ only in `client_id` and `tenant_id` do the same. -/
theorem play_blind {v : AuthVerifier E} (hv : AuthVerifier.fromConfig config = some v) :
    ∀ {as bs : List (ServerAct E)} {p q : ServerState E}, Runs config always p →
      Runs config always q → p.blind = q.blind → as.map blindAct = bs.map blindAct →
      (exec (server E).next (fun _ _ => true) p as).map ServerState.blind =
        (exec (server E).next (fun _ _ => true) q bs).map ServerState.blind
  | [], [], p, q, _, _, hpq, _ => by simpa [exec] using hpq
  | a :: as, b :: bs, p, q, hp, hq, hpq, hab => by
      rw [List.map_cons, List.map_cons, List.cons.injEq] at hab
      obtain ⟨hact, hrest⟩ := hab
      have hpauth : p.shared.app.auth = some v := (booked_run hp).shared.auth.trans hv
      have hqauth : q.shared.app.auth = some v := (booked_run hq).shared.auth.trans hv
      have hnext : ((server E).next p a).map ServerState.blind =
          ((server E).next q b).map ServerState.blind := by
        rw [← next_blind hpauth, ← next_blind hqauth, hpq, hact]
      simp only [exec, ↓reduceIte]
      cases hp' : (server E).next p a with
      | none =>
        cases hq' : (server E).next q b with
        | none => rfl
        | some q' => rw [hp', hq'] at hnext; cases hnext
      | some p' =>
        cases hq' : (server E).next q b with
        | none => rw [hp', hq'] at hnext; cases hnext
        | some q' =>
          rw [hp', hq'] at hnext
          exact play_blind hv (.tail hp trivial hp') (.tail hq trivial hq')
            (Option.some.inj hnext) hrest
  | [], b :: bs, _, _, _, _, _, hab => by cases hab
  | a :: as, [], _, _, _, _, _, hab => by cases hab

end WsServer
