import WsServer.Permits
import WsServer.Wiring

/-! Who a request is. Once a handshake or a call is past its authentication, its identity is what the
    verifier of the configuration made of the token it carried at some moment, or the anonymous one
    where there is no verifier. Whether there is one decides whether authentication can fail open. -/

namespace WsServer

open Lib

variable {E : Ext} {w : World E} {i : ℕ} {c : Session E} {r : World E × Session E} {config : Config}

/-- The handshake is past authentication. -/
def Stage.isIdentified (s : Stage) : Bool := s.isLate || decide (s = .authenticated)

/-- The call is past authentication and goes on. -/
def CallPc.isLetIn : CallPc E → Bool
  | .publishing .. | .sending .. | .directing .. => true
  | _ => false

/-- The identity of a request was verified, or authentication is off. -/
def Task.Identified (config : Config) : Task E → Prop
  | .ws c => c.stage.isIdentified = true →
      ∃ now, wsIdentity (AuthVerifier.fromConfig (E := E) config) now c.query = .ok c.identity
  | .http d => d.pc.isLetIn = true →
      ∃ now, resolveIdentity (AuthVerifier.fromConfig (E := E) config) now d.authorization =
        .ok d.identity

/-- What a handshake step does to the identity. -/
theorem identity_handshake {a : HandshakeAct} (h : Handshake.step w c a = some r)
    (hid : r.2.stage.isIdentified = true) :
    r.2.query = c.query ∧ ((c.stage.isIdentified = true ∧ r.2.identity = c.identity) ∨
      a = .authenticate ∧ wsIdentity w.app.auth w.now c.query = .ok r.2.identity) := by
  refine ⟨(Handshake.step_framed h).query, ?_⟩
  cases a with
  | ipAdmission order =>
    simp only [Handshake.step, Handshake.ipAdmission, Option.ite_none_right_eq_some] at h
    obtain ⟨-, h⟩ := h
    split at h
    · cases h; cases hid
    · split at h
      · split at h <;> cases h <;> cases hid
      · cases h
  | globalPermit =>
    simp only [Handshake.step, Option.ite_none_right_eq_some, Option.some.injEq] at h
    obtain ⟨-, rfl⟩ := h
    unfold Handshake.globalPermit at hid
    split at hid <;> cases hid
  | authenticate =>
    simp only [Handshake.step, Option.ite_none_right_eq_some, Option.some.injEq] at h
    obtain ⟨-, rfl⟩ := h
    unfold Handshake.authenticate at hid ⊢
    split at hid
    · rename_i hok
      exact Or.inr ⟨rfl, by simp only [hok]⟩
    · cases hid
  | tenantPermit =>
    simp only [Handshake.step, Option.ite_none_right_eq_some, Option.some.injEq] at h
    obtain ⟨hs, rfl⟩ := h
    refine Or.inl ⟨by rw [hs]; rfl, ?_⟩
    unfold Handshake.tenantPermit
    split <;> rfl
  | upgrade succeeds =>
    simp only [Handshake.step, Option.ite_none_right_eq_some, Option.some.injEq] at h
    obtain ⟨hs, rfl⟩ := h
    exact Or.inl ⟨by rw [hs]; rfl, rfl⟩
  | countKind | countRejected =>
    simp only [Handshake.step] at h
    split at h <;> cases h
    cases hid
  | dropIp | dropGlobal | dropTenant =>
    simp only [Handshake.step, Option.ite_none_right_eq_some, Option.some.injEq] at h
    obtain ⟨-, rfl⟩ := h
    exact Or.inl ⟨hid, rfl⟩

/-- After the handshake a request keeps its ticket, and stays past authentication. -/
theorem identity_later {a : TaskAct} (ha : ∀ b, a ≠ .handshake b)
    (h : Session.step w i c a = some r) :
    r.2.query = c.query ∧ r.2.identity = c.identity ∧
      (r.2.stage.isIdentified = true → c.stage.isIdentified = true) := by
  have of_ticket : r.2.ticket = c.ticket → r.2.query = c.query ∧ r.2.identity = c.identity :=
    fun ht => ⟨congrArg Ticket.query ht, congrArg Ticket.identity ht⟩
  cases a with
  | handshake b => exact (ha b rfl).elim
  | setup b =>
    have hf := Setup.step_framed h
    obtain ⟨hq, hid⟩ := of_ticket hf.ticket
    refine ⟨hq, hid, fun _ => ?_⟩
    rw [Stage.isIdentified, (setup_isLate h).1, Bool.true_or]
  | supervise b =>
    have hf := Supervise.step_framed h
    obtain ⟨hq, hid⟩ := of_ticket hf.ticket
    refine ⟨hq, hid, fun _ => ?_⟩
    rw [Stage.isIdentified, (supervise_isLate h).1, Bool.true_or]
  | writer b =>
    have hf := Writer.step_framed h
    obtain ⟨hq, hid⟩ := of_ticket hf.ticket
    exact ⟨hq, hid, by rw [hf.stage]; exact id⟩
  | fanout b =>
    have hf := Fanout.step_framed h
    obtain ⟨hq, hid⟩ := of_ticket hf.ticket
    exact ⟨hq, hid, by rw [hf.stage]; exact id⟩
  | reader b =>
    have hf := (Reader.step_framed h).kept
    obtain ⟨hq, hid⟩ := of_ticket hf.ticket
    exact ⟨hq, hid, by rw [hf.stage]; exact id⟩
  | call b => cases h

/-- What a step of a call does to its identity. -/
theorem identity_call {d : Call E} {a : CallAct} {s : World E × Call E}
    (h : Api.step w i d a = some s) :
    s.2.authorization = d.authorization ∧ (s.2.pc.isLetIn = true →
      (d.pc.isLetIn = true ∧ s.2.identity = d.identity) ∨
        resolveIdentity w.app.auth w.now d.authorization = .ok s.2.identity) := by
  cases a with
  | resolve =>
    simp only [Api.step] at h
    split at h
    · cases h
      simp only [Api.resolve]
      split
      · exact ⟨rfl, fun h => by cases h⟩
      · rename_i identity hok
        split
        · unfold Api.publish
          dsimp only
          split
          · exact ⟨rfl, fun _ => Or.inr hok⟩
          · exact ⟨rfl, fun h => by cases h⟩
        · unfold Api.direct
          split
          · exact ⟨rfl, fun _ => Or.inr hok⟩
          · exact ⟨rfl, fun h => by cases h⟩
    · cases h
  | locate =>
    simp only [Api.step] at h
    split at h
    · rename_i hp
      cases h
      unfold Api.locate
      split
      · exact ⟨rfl, fun _ => Or.inl ⟨by rw [hp]; rfl, rfl⟩⟩
      · exact ⟨rfl, fun h => by cases h⟩
    · cases h
  | send =>
    simp only [Api.step] at h
    split at h
    · cases h; exact ⟨rfl, fun h => by cases h⟩
    · cases h
  | direct =>
    simp only [Api.step] at h
    split at h
    · cases h
      unfold Api.deliver
      dsimp only
      split <;> exact ⟨rfl, fun h => by cases h⟩
    · cases h

theorem identified_run {ok : ServerState E → ServerAct E → Prop} {p : ServerState E}
    (h : Runs config ok p) {i : ℕ} {l : Task E} (hl : p.threads[i]? = some l) :
    l.Identified config := by
  refine (Prog.rely_guarantee (J := fun _ _ => True)
    (K := fun (_ : World E) (_ : ℕ) (l : Task E) => l.Identified config)
    ⟨trivial, fun i l hl => by simp [boot] at hl⟩ ?_ ?_
    (fun _ _ _ _ _ _ _ m _ hI _ _ _ hm _ => hI.each _ m hm)
    (fun _ _ _ hI _ => ⟨trivial, fun j m hm => hI.each j m hm⟩) h).each i l hl
  · rintro p (⟨ip, query⟩ | ⟨authorization, request⟩) - -
    · exact ⟨trivial, fun h => by cases h⟩
    · exact ⟨trivial, fun h => by cases h⟩
  · rintro p i l a w' l' hr hI - hl (hs : Task.step p.shared i l a = some (w', l'))
    have hauth : p.shared.app.auth = AuthVerifier.fromConfig config := (booked_run hr).shared.auth
    have hK := hI.each i l hl
    refine ⟨trivial, ?_⟩
    cases l with
    | ws c =>
      obtain ⟨c', rfl, hstep⟩ := step_ws hs
      intro hid
      by_cases hb : ∃ b, a = .handshake b
      · obtain ⟨b, rfl⟩ := hb
        obtain ⟨hq, hc | ⟨-, hc⟩⟩ := identity_handshake hstep hid
        · obtain ⟨now, hnow⟩ := hK hc.1
          exact ⟨now, by rw [hq, hc.2]; exact hnow⟩
        · exact ⟨p.shared.now, by rw [hq, ← hauth]; exact hc⟩
      · obtain ⟨hq, hsame, hbefore⟩ := identity_later (fun b e => hb ⟨b, e⟩) hstep
        obtain ⟨now, hnow⟩ := hK (hbefore hid)
        exact ⟨now, by rw [hq, hsame]; exact hnow⟩
    | http d =>
      obtain ⟨d', b, rfl, rfl, hstep⟩ := step_http hs
      intro hin
      obtain ⟨hsame, hcases⟩ := identity_call hstep
      rcases hcases hin with hd | hd
      · obtain ⟨now, hnow⟩ := hK hd.1
        exact ⟨now, by rw [hsame, hd.2]; exact hnow⟩
      · exact ⟨p.shared.now, by rw [hsame, ← hauth]; exact hd⟩

/-! ### Failing open -/

/-- The key that the configuration names. -/
def KeyOf (E : Ext) (config : Config) (key : E.DecodingKey) : Prop :=
  (∃ secret, config.jwtSecret = some secret ∧ key = E.fromSecret secret) ∨
    (config.jwtSecret = none ∧ ∃ pem, config.jwtPublicKey = some pem ∧ parsePem E pem = some key)

/-- The token decoded at some moment under the key of the configuration, with the checks of the verifier. -/
def Verified (E : Ext) (config : Config) (token : String) : Prop :=
  ∃ (v : AuthVerifier E) (now : ℕ) (claims : Claims), AuthVerifier.fromConfig config = some v ∧
    KeyOf E config v.decodingKey ∧ E.decode now token v.decodingKey v.validation = .ok claims

/-- `AppState::new` makes a verifier: the secret is set, or a parser accepts the public key. -/
def HasVerifier (E : Ext) (config : Config) : Prop :=
  config.jwtSecret.isSome = true ∨
    ∃ pem, config.jwtPublicKey = some pem ∧ (parsePem E pem).isSome = true

/-- Nothing gets past authentication without a verified token. -/
structure AuthClosed (config : Config) (p : ServerState E) : Prop where
  upgraded : ∀ i c, p.session i = some c → 1 ≤ c.stage.rank ∨ c.stage = .upgraded →
    ∃ token, c.query.token = some token ∧ Verified E config token
  called : ∀ i d a (p' : ServerState E), p.call i = some d →
    (server E).next p (.run i a) = some p' →
    p'.shared.published ≠ p.shared.published ∨ p'.shared.queues ≠ p.shared.queues →
    ∃ token, extractBearer d.authorization = some token ∧ Verified E config token

theorem keyOf_decodingKey {v : AuthVerifier E} (h : AuthVerifier.fromConfig config = some v) :
    KeyOf E config v.decodingKey := by
  unfold AuthVerifier.fromConfig at h
  cases hs : config.jwtSecret with
  | some secret =>
    simp only [hs, Option.some.injEq] at h
    subst h
    exact Or.inl ⟨secret, hs, rfl⟩
  | none =>
    cases hp : config.jwtPublicKey with
    | none => simp [hs, hp] at h
    | some pem =>
      simp only [hs, hp, Option.map_eq_some_iff] at h
      obtain ⟨key, hkey, rfl⟩ := h
      exact Or.inr ⟨hs, pem, hp, hkey⟩

theorem verified_of_verify {v : AuthVerifier E} {now : ℕ} {token : String} {identity : AuthIdentity}
    (hv : AuthVerifier.fromConfig config = some v) (h : v.verify now token = .ok identity) :
    Verified E config token := by
  obtain ⟨claims, hdecode, -⟩ := AuthVerifier.verify_ok h
  exact ⟨v, now, claims, hv, keyOf_decodingKey hv, hdecode⟩

/-- Where there is a verifier, an identity comes from the token of the query. -/
theorem wsIdentity_ok {v : AuthVerifier E} {now : ℕ} {query : WsQuery} {identity : AuthIdentity}
    (h : wsIdentity (some v) now query = .ok identity) :
    ∃ token, query.token = some token ∧ v.verify now token = .ok identity := by
  unfold wsIdentity at h
  split at h
  · rename_i hv
    cases hv
    split at h
    · rename_i token ht
      split at h
      · rename_i id hok
        cases h
        exact ⟨token, ht, hok⟩
      · cases h
    · cases h
  · rename_i hv; cases hv

theorem resolveIdentity_ok {v : AuthVerifier E} {now : ℕ} {authorization : Option String}
    {identity : AuthIdentity} (h : resolveIdentity (some v) now authorization = .ok identity) :
    ∃ token, extractBearer authorization = some token ∧ v.verify now token = .ok identity := by
  unfold resolveIdentity at h
  split at h
  · rename_i hv
    cases hv
    split at h
    · cases h
    · rename_i token ht
      split at h
      · rename_i id hok
        cases h
        exact ⟨token, ht, hok⟩
      · cases h
  · rename_i hv; cases hv

/-- A call that publishes or delivers is past authentication. -/
theorem isLetIn_of_effect {d : Call E} {a : CallAct} {s : World E × Call E}
    (h : Api.step w i d a = some s)
    (heffect : s.1.published ≠ w.published ∨ s.1.queues ≠ w.queues) : d.pc.isLetIn = true := by
  cases a with
  | resolve =>
    simp only [Api.step] at h
    split at h <;> cases h
    exact (heffect.elim (· rfl) (· rfl)).elim
  | locate | send | direct =>
    simp only [Api.step] at h
    split at h <;> cases h
    rename_i hp
    rw [hp]
    rfl

theorem auth_closed_of_verifier {p : ServerState E} (hv : HasVerifier E config)
    (h : Runs config always p) : AuthClosed config p := by
  obtain ⟨v, hauth⟩ := Option.isSome_iff_exists.mp
    ((AuthVerifier.fromConfig_isSome (E := E) config).mpr hv)
  refine ⟨fun i c hc hst => ?_, fun i d a p' hd hs heffect => ?_⟩
  · have hid : c.stage.isIdentified = true := by
      rcases hst with hst | hst
      · cases hs : c.stage <;> rw [hs] at hst <;> first | rfl | (simp [Stage.rank] at hst)
      · rw [hst]; rfl
    obtain ⟨now, hnow⟩ := identified_run h (session_eq_some.mp hc) hid
    rw [hauth] at hnow
    obtain ⟨token, ht, hok⟩ := wsIdentity_ok hnow
    exact ⟨token, ht, verified_of_verify hauth hok⟩
  · obtain ⟨l, w', l', hl, (hstep : Task.step p.shared i l a = some (w', l')), rfl⟩ :=
      Prog.next_run hs
    obtain rfl : l = .http d := Option.some.inj (hl.symm.trans (call_eq_some.mp hd))
    obtain ⟨d', b, rfl, rfl, hcall⟩ := step_http hstep
    obtain ⟨now, hnow⟩ := identified_run h hl (isLetIn_of_effect hcall heffect)
    rw [hauth] at hnow
    obtain ⟨token, ht, hok⟩ := resolveIdentity_ok hnow
    exact ⟨token, ht, verified_of_verify hauth hok⟩

/-- Some `/api/publish` of an anonymous caller can be encoded, and its topic channel made. -/
def CanPublish (E : Ext) (config : Config) : Prop :=
  broadcastPanics E.slotSize config.topicChannelCapacity = false ∧
    ∃ (body : PublishBody E.Value) (encoded : E.Bytes),
      encodeServerEvent (.message (body.topic.getD "public") "api" body.requestId body.payload) =
        some encoded

/-- Without a verifier, `/api/publish` takes a request that carries no token. -/
theorem published_open (hpub : CanPublish E config) (hv : ¬ HasVerifier E config) :
    ∃ p : ServerState E, Runs config always p ∧ ¬ AuthClosed config p := by
  obtain ⟨hroom, body, encoded, hencoded⟩ := hpub
  have hauth : AuthVerifier.fromConfig (E := E) config = none := by
    rw [← Option.not_isSome_iff_eq_none, AuthVerifier.fromConfig_isSome]
    exact hv
  let topicKey := tenantTopic "default" (normalizeTopic (body.topic.getD "public"))
  let d : Call E :=
    { Call.arrive none (.publish body) with
      identity := ⟨"api", "default"⟩, pc := .publishing topicKey encoded }
  let d' : Call E := { d with pc := .sending topicKey 0 encoded }
  let w : World E := World.init E config
  obtain ⟨w', hw'⟩ : ∃ w', w.topicSender topicKey = some (0, w') := by
    simp [World.topicSender, w, World.init, AppState.new, hroom]
  have hresolve : Api.step w 0 (Call.arrive none (.publish body)) .resolve = some (w, d) := by
    simp [Api.step, Api.resolve, Api.publish, resolveIdentity, w, World.init, AppState.new, hauth,
      hencoded, Call.arrive, d, topicKey]
  have hlocate : Api.step w 0 d .locate = some (w', d') := by
    simp [Api.step, Api.locate, d, d', hw']
  have hrun : Runs config always (⟨w', [.http d']⟩ : ServerState E) := by
    have h₀ : Runs config always (boot E config) := .refl
    have h₁ : Runs config always (⟨w, [.http (Call.arrive none (.publish body))]⟩ : ServerState E) :=
      .tail (a := .spawn (.api none (.publish body))) h₀ trivial rfl
    have h₂ : Runs config always (⟨w, [.http d]⟩ : ServerState E) := by
      refine .tail (a := .run 0 (.call .resolve)) h₁ trivial ?_
      simp [Prog.next, server, Task.step, hresolve]
    refine .tail (a := .run 0 (.call .locate)) h₂ trivial ?_
    simp [Prog.next, server, Task.step, hlocate]
  refine ⟨_, hrun, fun hclosed => ?_⟩
  have hsend : (server E).next ⟨w', [.http d']⟩ (.run 0 (.call .send)) =
      some ⟨(Api.send w' 0 d' topicKey 0 encoded).1,
        [.http (Api.send w' 0 d' topicKey 0 encoded).2]⟩ := by
    simp [Prog.next, server, Task.step, Api.step, d']
  have hgrew : (Api.send w' 0 d' topicKey 0 encoded).1.published ≠ w'.published := by
    intro he
    have hsent : (Api.send w' 0 d' topicKey 0 encoded).1.published =
        w'.published ++ [⟨topicKey, d'.identity, .http 0, encoded⟩] :=
      congrArg Wiring.published (wiring_publish w' 0 ⟨topicKey, d'.identity, .http 0, encoded⟩)
    rw [hsent] at he
    exact absurd (congrArg List.length he) (by simp)
  obtain ⟨token, htoken, -⟩ := hclosed.called 0 d' (.call .send) _ rfl hsend (Or.inl hgrew)
  cases htoken

/-- Without a verifier, a handshake without a token is upgraded. -/
theorem upgraded_open {now : ℕ} {ip : IpAddr} {query : WsQuery} (hin : LetsIn E config now ip query)
    (hv : ¬ HasVerifier E config) :
    ∃ p : ServerState E, Runs config always p ∧ ¬ AuthClosed config p := by
  have hauth : AuthVerifier.fromConfig (E := E) config = none := by
    rw [← Option.not_isSome_iff_eq_none, AuthVerifier.fromConfig_isSome]
    exact hv
  have hanyone : LetsIn E config now ip ⟨"", none, none, none⟩ :=
    ⟨hin.address, hin.server, ⟨⟨"anonymous", "default"⟩, by rw [hauth]; rfl⟩, hin.tenant⟩
  obtain ⟨w, c, hrun, hst, hquery, -⟩ := let_in hanyone
  refine ⟨_, hrun, fun hclosed => ?_⟩
  obtain ⟨token, htoken, -⟩ := hclosed.upgraded 0 c rfl (Or.inr hst)
  rw [hquery] at htoken
  cases htoken

/-- The configuration lets somebody do something: publish over HTTP, or come in. -/
def Serves (E : Ext) (config : Config) : Prop :=
  CanPublish E config ∨ ∃ now ip query, LetsIn E config now ip query

/-- A key setting closes the server if it makes a verifier, and only then: a public key that no parser
    accepts turns authentication off. -/
theorem auth_closed (E : Ext) (config : Config) :
    (HasVerifier E config → ∀ p : ServerState E, Runs config always p → AuthClosed config p) ∧
      (Serves E config → (∀ p : ServerState E, Runs config always p → AuthClosed config p) →
        HasVerifier E config) := by
  refine ⟨fun hv p h => auth_closed_of_verifier hv h, fun hserves hclosed => ?_⟩
  by_contra hv
  obtain ⟨p, hp, hopen⟩ : ∃ p : ServerState E, Runs config always p ∧ ¬ AuthClosed config p := by
    rcases hserves with hpub | ⟨now, ip, query, hin⟩
    · exact published_open hpub hv
    · exact upgraded_open hin hv
  exact hopen (hclosed p hp)

/-- A shared secret. -/
def Config.secret : Config := { Config.plain with jwtSecret := some "secret" }

/-- The path of a PEM file in place of its text, which no parser accepts. -/
def Config.badPem : Config := { Config.plain with jwtPublicKey := some "/etc/jwt/public.pem" }

theorem badPem_canPublish : CanPublish Ext.plain Config.badPem :=
  ⟨by decide +kernel, ⟨none, none, "hi"⟩, _, rfl⟩

theorem badPem_noVerifier : ¬ HasVerifier Ext.plain Config.badPem := by
  rintro (hv | ⟨pem, hpem, hv⟩)
  · cases hv
  · cases hv

theorem auth_closed_secret :
    (∀ p : ServerState Ext.plain, Runs Config.secret always p → AuthClosed Config.secret p) ∧
      ¬ ∀ p : ServerState Ext.plain, Runs Config.badPem always p → AuthClosed Config.badPem p :=
  ⟨(auth_closed Ext.plain Config.secret).1 (Or.inl rfl), fun hclosed =>
    badPem_noVerifier ((auth_closed Ext.plain Config.badPem).2 (Or.inl badPem_canPublish) hclosed)⟩

theorem auth_fails_open : ¬ ∀ (E : Ext) (config : Config) (p : ServerState E),
    config.jwtSecret.isSome = true ∨ config.jwtPublicKey.isSome = true →
    Runs config always p → AuthClosed config p := by
  intro hclosed
  obtain ⟨p, hp, hopen⟩ := published_open badPem_canPublish badPem_noVerifier
  exact hopen (hclosed Ext.plain Config.badPem p (Or.inr rfl) hp)

end WsServer
