import WsServer.Blind
import WsServer.Identity
import WsServer.Worded

/-! Who a message is from. With a verifier every `Message` and `DirectMessage` names the client of the
    token that its connection or call was verified with, and a direct message stays in the tenant of that
    token. What a client claims in its query plays no part. -/

namespace WsServer

open Lib

variable {E : Ext} {w : World E} {i j : ℕ} {c : Session E} {config : Config} {p p' : ServerState E}

/-- The token that a request carries. -/
def Task.token : Task E → Option String
  | .ws c => c.query.token
  | .http d => extractBearer d.authorization

/-- The number of the request that published. -/
def Origin.task : Origin → ℕ
  | .ws i _ => i
  | .http i => i

/-- The identity consists of the claims that the token of request `i` was verified to have. -/
def Vouched (config : Config) (p : ServerState E) (i : ℕ) (identity : AuthIdentity) : Prop :=
  ∃ verifier l token now claims, AuthVerifier.fromConfig (E := E) config = some verifier ∧
    p.threads[i]? = some l ∧ l.token = some token ∧
    E.decode now token verifier.decodingKey verifier.validation = .ok claims ∧
    identity = { clientId := claims.sub, tenantId := claims.tenantId.getD "default" }

/-- The publish is a `Message` from its publisher. -/
def Publish.IsMessage (q : Publish E) : Prop :=
  ∃ topic requestId payload,
    encodeServerEvent (.message topic q.by_.clientId requestId payload) = some q.encoded

/-- An event that speaks for the server. -/
def ServerEvent.isPlain {Value : Type} : ServerEvent Value → Bool
  | .ready .. | .pong .. | .error .. => true
  | .message .. | .directMessage .. => false

/-- What request `i` puts into queue `j`: an event of the server, a frame without an event, a published
    message, or a direct message from the one who is vouched for, inside his tenant. -/
inductive Genuine (config : Config) (p : ServerState E) (i j : ℕ) (x : Item E) : Prop
  | plain (event : ServerEvent E.Value) (encoded : E.Bytes) (h : event.isPlain = true)
      (hencode : encodeServerEvent event = some encoded) (hx : x.msg = .binary encoded)
  | control (h : ∀ bytes, x.msg ≠ .binary bytes)
  | message (q : Publish E) (hq : q ∈ p.shared.published) (hx : x.msg = .binary q.encoded)
  | direct (sender : AuthIdentity) (target : String) (requestId : Option String) (payload : E.Value)
      (encoded : E.Bytes) (c : Session E) (hsender : Vouched config p i sender)
      (hencode : encodeServerEvent (.directMessage sender.clientId target requestId payload) =
        some encoded)
      (hx : x.msg = .binary encoded) (hc : p.session j = some c)
      (hreceiver : Vouched config p j c.identity) (htenant : c.identity.tenantId = sender.tenantId)

/-- Nobody speaks in another one's name: not in what was published, not in what the next step publishes
    or puts into a queue. -/
structure Authentic (config : Config) (p : ServerState E) : Prop where
  published : ∀ q ∈ p.shared.published, q.IsMessage ∧ Vouched config p q.origin.task q.by_
  publish : ∀ i a p' q, (server E).next p (.run i a) = some p' →
    p'.shared.published = p.shared.published ++ [q] → q.origin.task = i
  put : ∀ i a p' j x, (server E).next p (.run i a) = some p' →
    (p'.shared.queues j).placed = (p.shared.queues j).placed ++ [x] → Genuine config p i j x

/-! ### Vouching -/

theorem token_kept {l l' : Task E} {a : TaskAct} {w' : World E}
    (h : Task.step w i l a = some (w', l')) : l'.token = l.token := by
  cases l with
  | http d =>
    obtain ⟨d', b, rfl, rfl, hs⟩ := step_http h
    exact congrArg extractBearer (identity_call hs).1
  | ws c =>
    obtain ⟨c', rfl, hs⟩ := step_ws h
    by_cases hb : ∃ b, a = .handshake b
    · obtain ⟨b, rfl⟩ := hb
      exact congrArg WsQuery.token (Handshake.step_framed hs).query
    · exact congrArg WsQuery.token (identity_later (fun b e => hb ⟨b, e⟩) hs).1

theorem Vouched.step {a : ServerAct E} {identity : AuthIdentity} (h : Vouched config p i identity)
    (hs : (server E).next p a = some p') : Vouched config p' i identity := by
  obtain ⟨v, l, token, now, claims, hv, hl, htoken, hclaims⟩ := h
  have hlt := (List.getElem?_eq_some_iff.mp hl).1
  cases a with
  | spawn request =>
    cases hs
    exact ⟨v, l, token, now, claims, hv, (List.getElem?_append_left hlt).trans hl, htoken, hclaims⟩
  | env d =>
    obtain ⟨w', he, rfl⟩ := Prog.next_env hs
    exact ⟨v, l, token, now, claims, hv, hl, htoken, hclaims⟩
  | run k b =>
    obtain ⟨m, w', m', hm, (hstep : Task.step p.shared k m b = some (w', m')), rfl⟩ := Prog.next_run hs
    by_cases hik : k = i
    · subst hik
      obtain rfl : l = m := Option.some.inj (hl.symm.trans hm)
      exact ⟨v, m', token, now, claims, hv, List.getElem?_set_self hlt,
        (token_kept hstep).trans htoken, hclaims⟩
    · exact ⟨v, l, token, now, claims, hv, (List.getElem?_set_ne hik).trans hl, htoken, hclaims⟩

/-- Where there is a verifier, an identity is vouched for by the token. -/
theorem vouched_of_identified {l : Task E} (hv : HasVerifier E config) (h : Runs config always p)
    (hl : p.threads[i]? = some l)
    (hin : match l with
      | .ws c => c.stage.isIdentified = true
      | .http d => d.pc.isLetIn = true) : Vouched config p i l.identity := by
  obtain ⟨v, hauth⟩ := Option.isSome_iff_exists.mp
    ((AuthVerifier.fromConfig_isSome (E := E) config).mpr hv)
  have hid := identified_run h hl
  cases l with
  | ws c =>
    obtain ⟨now, hnow⟩ := hid hin
    rw [hauth] at hnow
    obtain ⟨token, ht, hok⟩ := wsIdentity_ok hnow
    obtain ⟨claims, hdecode, hclaims⟩ := AuthVerifier.verify_ok hok
    exact ⟨v, _, token, now, claims, hauth, hl, ht, hdecode, hclaims⟩
  | http d =>
    obtain ⟨now, hnow⟩ := hid hin
    rw [hauth] at hnow
    obtain ⟨token, ht, hok⟩ := resolveIdentity_ok hnow
    obtain ⟨claims, hdecode, hclaims⟩ := AuthVerifier.verify_ok hok
    exact ⟨v, _, token, now, claims, hauth, hl, ht, hdecode, hclaims⟩

/-- A task with something in hand is past authentication. -/
theorem vouched_of_hand {l : Task E} {hand : Hand E} (hv : HasVerifier E config)
    (h : Runs config always p) (hl : p.threads[i]? = some l) (hh : l.hand = some hand) :
    Vouched config p i l.identity := by
  refine vouched_of_identified hv h hl ?_
  cases l with
  | ws c =>
    have hrank : 10 ≤ c.stage.rank := by
      by_contra hlt
      rw [Task.hand, (shaped_run h (session_eq_some.mpr hl)).reader (by omega)] at hh
      cases hh
    dsimp only
    cases hs : c.stage <;> rw [hs] at hrank <;> first | rfl | (simp [Stage.rank] at hrank)
  | http d =>
    simp only [Task.hand, CallPc.hand] at hh
    dsimp only
    split at hh
    · rename_i hp; rw [hp]; rfl
    · rename_i hp; rw [hp]; rfl
    · rename_i hp; rw [hp]; rfl
    · cases hh

/-! ### The result -/

theorem hand_of_publication {l : Task E} {ch : ℕ} {q : Publish E}
    (hq : l.publication i = some (ch, q)) :
    l.hand = some (.publish q.key q.encoded) ∧ l.identity = q.by_ ∧ q.origin.task = i := by
  cases l with
  | ws c =>
    simp only [Task.publication] at hq
    split at hq <;> cases hq
    rename_i hr
    exact ⟨by rw [Task.hand, hr]; rfl, rfl, rfl⟩
  | http d =>
    simp only [Task.publication] at hq
    split at hq <;> cases hq
    rename_i hp
    exact ⟨by rw [Task.hand, hp]; rfl, rfl, rfl⟩

theorem message_of_writes {l : Task E} {topicKey : String} {encoded : E.Bytes}
    (h : l.Writes (.publish topicKey encoded)) : ∃ topic requestId payload,
      encodeServerEvent (.message topic l.identity.clientId requestId payload) = some encoded := by
  cases l with
  | ws c =>
    have h : c.Writes _ := h
    cases h with
    | publish topic requestId payload henc => exact ⟨_, requestId, payload, henc⟩
  | http d =>
    have h : d.Writes _ := h
    cases h with
    | publish body hb henc => exact ⟨_, body.requestId, body.payload, henc⟩

theorem directMessage_of_writes {l : Task E} {target : String} {encoded : E.Bytes}
    (h : l.Writes (.direct target encoded)) : ∃ requestId payload,
      encodeServerEvent (.directMessage l.identity.clientId target requestId payload) =
        some encoded := by
  cases l with
  | ws c =>
    have h : c.Writes _ := h
    cases h with
    | direct target requestId payload henc => exact ⟨requestId, payload, henc⟩
  | http d =>
    have h : d.Writes _ := h
    cases h with
    | direct body hb henc => exact ⟨body.requestId, body.payload, henc⟩

/-- A step that publishes. -/
theorem publication_of_step {a : TaskAct} {q : Publish E}
    (hs : (server E).next p (.run i a) = some p')
    (hq : p'.shared.published = p.shared.published ++ [q]) :
    ∃ l ch, p.threads[i]? = some l ∧ l.publication i = some (ch, q) := by
  obtain ⟨l, w', l', hl, (hstep : Task.step p.shared i l a = some (w', l')), rfl⟩ := Prog.next_run hs
  rcases published_step hstep with he | ⟨ch, q', hq', he⟩
  · have hnil : p.shared.published = p.shared.published ++ [q] := he.symm.trans hq
    simp at hnil
  · have hqq : [q'] = [q] := List.append_cancel_left (he.symm.trans hq)
    cases hqq
    exact ⟨l, ch, hl, hq'⟩

theorem published_run (hv : HasVerifier E config) (h : Runs config always p) :
    ∀ q ∈ p.shared.published, q.IsMessage ∧ Vouched config p q.origin.task q.by_ := by
  refine h.invariant (I := fun (p : ServerState E) => ∀ q ∈ p.shared.published,
    q.IsMessage ∧ Vouched config p q.origin.task q.by_) (by intro q hq; cases hq) ?_
  intro p a p' hr hI _ hs q hq
  have hold : q ∈ p.shared.published → q.IsMessage ∧ Vouched config p' q.origin.task q.by_ :=
    fun hq => ⟨(hI q hq).1, (hI q hq).2.step hs⟩
  cases a with
  | spawn request => cases hs; exact hold hq
  | env d =>
    obtain ⟨w', he, rfl⟩ := Prog.next_env hs
    cases he
    exact hold hq
  | run i a =>
    obtain ⟨l, w', l', hl, (hstep : Task.step p.shared i l a = some (w', l')), hp'⟩ :=
      Prog.next_run hs
    subst hp'
    rcases published_step hstep with he | ⟨ch, q', hq', he⟩
    · exact hold (by rwa [← he])
    · rcases List.mem_append.mp (he ▸ hq : q ∈ p.shared.published ++ [q']) with hq | hq
      · exact hold hq
      · obtain rfl := List.mem_singleton.mp hq
        obtain ⟨hhand, hid, horigin⟩ := hand_of_publication hq'
        obtain ⟨topic, requestId, payload, henc⟩ := message_of_writes (worded_run hr hl _ hhand)
        refine ⟨⟨topic, requestId, payload, by rw [← hid]; exact henc⟩, ?_⟩
        rw [horigin, ← hid]
        exact (vouched_of_hand hv hr hl hhand).step hs

/-- A connection that an entry names is vouched for. -/
theorem vouched_of_holds (hv : HasVerifier E config) (h : Runs config always p)
    (hc : p.session j = some c) (hholds : c.phase.holds = true) : Vouched config p j c.identity := by
  refine vouched_of_identified (l := .ws c) hv h (session_eq_some.mp hc) ?_
  have hphase : c.stage.phase.holds = true := hholds
  dsimp only
  cases hs : c.stage <;> rw [hs] at hphase <;> first | rfl | cases hphase

theorem genuine_of_puts {l : Task E} {x : Item E} (hv : HasVerifier E config)
    (h : Runs config always p) (hl : p.threads[i]? = some l) (hx : Puts p.shared i j l x) :
    Genuine config p i j x := by
  cases hx with
  | ready own hst hready =>
    obtain ⟨encoded, henc, rfl⟩ := hready
    exact .plain _ encoded rfl henc rfl
  | forwarded own hf =>
    rename_i c m
    have hcursor := (cursor_run h).session i c (session_eq_some.mpr hl)
    have hm : m.message ∈ forwarded (p.shared.queues i) ++ c.inHand := by
      rw [Session.inHand, hf]
      exact List.mem_append_right _ List.mem_cons_self
    obtain ⟨q, hq, hmsg⟩ := hcursor.carried _ hm
    exact .message q (List.mem_of_getElem? hq) hmsg
  | reply own hr =>
    rename_i c encoded
    have hw : c.Writes (.reply encoded) := worded_run h hl _ (by rw [Task.hand, hr]; rfl)
    cases hw with
    | pong requestId payload henc => exact .plain _ encoded rfl henc rfl
    | error code message henc => exact .plain _ encoded rfl henc rfl
  | limited own henc => exact .plain _ _ rfl henc rfl
  | control own hsource hmsg => exact .control hmsg
  | direct hh hto =>
    rename_i target encoded
    obtain ⟨handle, hlook, rfl⟩ := Option.map_eq_some_iff.mp hto
    obtain ⟨c, hc, hholds, hkey, -⟩ := entry_session h hlook
    obtain ⟨requestId, payload, henc⟩ := directMessage_of_writes (worded_run h hl _ hh)
    exact .direct l.identity target requestId payload encoded c (vouched_of_hand hv h hl hh) henc rfl
      hc (vouched_of_holds hv h hc hholds) (congrArg Prod.fst hkey).symm

theorem authentic_run (hv : HasVerifier E config) (h : Runs config always p) : Authentic config p where
  published := published_run hv h
  publish := by
    intro i a p' q hs hq
    obtain ⟨l, ch, -, hl⟩ := publication_of_step hs hq
    exact (hand_of_publication hl).2.2
  put := by
    intro i a p' j x hs hx
    obtain ⟨l, w', l', hl, (hstep : Task.step p.shared i l a = some (w', l')), rfl⟩ :=
      Prog.next_run hs
    exact genuine_of_puts hv h hl ((step_puts hstep).last hx)

/-- With a verifier, senders are who their tokens say, and two runs that differ only in `client_id` and
    `tenant_id` of their queries agree in everything else. -/
theorem sender_authenticity (hv : HasVerifier E config) :
    (∀ p : ServerState E, Runs config always p → Authentic config p) ∧
      ∀ as bs : List (ServerAct E), as.map blindAct = bs.map blindAct →
        (play config (fun _ _ => true) as).map ServerState.blind =
          (play config (fun _ _ => true) bs).map ServerState.blind := by
  obtain ⟨v, hauth⟩ := Option.isSome_iff_exists.mp
    ((AuthVerifier.fromConfig_isSome (E := E) config).mpr hv)
  exact ⟨fun p h => authentic_run hv h, fun as bs hab => play_blind hauth .refl .refl rfl hab⟩

/-- A token library that accepts one token of alice. -/
def Ext.signed : Ext :=
  { Ext.plain with
    decode := fun _ token _ _ =>
      if token = "alice's" then .ok { sub := "alice", tenantId := none, exp := 0, iss := none }
      else .error .other }

/-- Alice connects as whom she likes, publishes, and is sent a direct message from herself. -/
def aliceAs (clientId : Option String) : List (ServerAct Ext.signed) :=
  .spawn (.ws (.v4 1) ⟨"public", clientId, none, some "alice's"⟩) ::
    steps 0 (handshakeSteps ++ registerSteps ++ spawnSteps ++
      [.reader (.frame (.text "\x7b\"kind\":\"publish\",\"payload\":\"hi\"\x7d")),
        .reader .tenantRate, .reader .locate, .reader .send]) ++
    .spawn (.api (some "Bearer alice's") (.direct ⟨"alice", none, "hi"⟩)) ::
      steps 1 [.call .resolve, .call .direct]

theorem sender_authenticity_alice : ∃ p : ServerState Ext.signed,
    (p.shared.published.length = 1 ∧ (p.shared.queues 0).placed.length = 2) ∧
      Authentic Config.secret p ∧
        (play Config.secret (fun _ _ => true) (aliceAs none)).map ServerState.blind =
          (play Config.secret (fun _ _ => true) (aliceAs (some "bob"))).map ServerState.blind := by
  have hv : HasVerifier Ext.signed Config.secret := Or.inl rfl
  obtain ⟨p, hp, hc⟩ := play_check Config.secret (fun _ _ => true) (aliceAs (some "bob"))
    (fun p => decide (p.shared.published.length = 1 ∧ (p.shared.queues 0).placed.length = 2))
    (by decide +kernel)
  exact ⟨p, of_decide_eq_true hc, (sender_authenticity hv).1 p hp.toAlways,
    (sender_authenticity hv).2 (aliceAs none) (aliceAs (some "bob")) rfl⟩

end WsServer
