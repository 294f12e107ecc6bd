import WsServer.Ordering

/-! Tenants and topics. Every key that a publisher has in hand was made from its own tenant id, so a
    message crosses from one tenant to another only where two of their keys are equal. The separator
    does not rule that out: `Collides` says for which tenant ids it happens. -/

namespace WsServer

open Lib

variable {E : Ext} {w : World E} {i : ℕ} {c : Session E} {r : World E × Session E}

/-- The key of some topic of a tenant. -/
def TenantKey (key tenantId : String) : Prop :=
  ∃ topic, key = tenantTopic tenantId (normalizeTopic topic)

/-- Key and tenant of the publish that a task is working on. -/
def Task.keyInHand : Task E → Option (String × String)
  | .ws c =>
    match c.reader with
    | .publishing key _ | .sending key _ _ => some (key, c.identity.tenantId)
    | _ => none
  | .http d =>
    match d.pc with
    | .publishing key _ | .sending key _ _ => some (key, d.identity.tenantId)
    | _ => none

/-- A task publishes under keys of its own tenant. -/
def Tenanted (l : Task E) : Prop :=
  ∀ key tenantId, l.keyInHand = some (key, tenantId) → TenantKey key tenantId

theorem keyInHand_of_publication {l : Task E} {ch : ℕ} {p : Publish E}
    (h : l.publication i = some (ch, p)) : l.keyInHand = some (p.key, p.by_.tenantId) := by
  cases l with
  | ws c =>
    simp only [Task.publication] at h
    split at h <;> cases h
    simp [Task.keyInHand, *]
  | http d =>
    simp only [Task.publication] at h
    split at h <;> cases h
    simp [Task.keyInHand, *]

/-- The key in hand comes with the bytes. -/
theorem keyInHand_ws {key tenantId : String} : (Task.ws c).keyInHand = some (key, tenantId) ↔
    c.identity.tenantId = tenantId ∧ ∃ encoded, c.reader.hand = some (.publish key encoded) := by
  cases hr : c.reader <;> simp [Task.keyInHand, ReaderPc.hand, hr, and_comm]

theorem keyInHand_http {d : Call E} {key tenantId : String} :
    (Task.http d).keyInHand = some (key, tenantId) ↔
      d.identity.tenantId = tenantId ∧ ∃ encoded, d.pc.hand = some (.publish key encoded) := by
  cases hp : d.pc <;> simp [Task.keyInHand, CallPc.hand, hp, and_comm]

/-- The key of a publish is made from the topic of the frame, or is that of the connection. -/
theorem tenantKey_keyOf (hc : TenantKey c.topicKey c.identity.tenantId) (topic : Option String) :
    TenantKey (c.keyOf topic) c.identity.tenantId := by
  cases topic with
  | none => exact hc
  | some topic => exact ⟨topic, rfl⟩

theorem tenanted_reader {a : ReaderAct} (hc : TenantKey c.topicKey c.identity.tenantId)
    (hl : Tenanted (.ws c)) (h : Reader.step w i c a = some r) : Tenanted (.ws r.2) := by
  rintro key tenantId he
  obtain ⟨rfl, encoded, hhand⟩ := keyInHand_ws.mp he
  have hid : r.2.identity = c.identity := congrArg Ticket.identity (Reader.step_framed h).kept.ticket
  have hturn := reader_turn h
  rw [hid]
  generalize r.2.reader = pc at hturn hhand
  cases hturn with
  | empty hnone => rw [hnone] at hhand; cases hhand
  | written hw =>
    rw [hand_readerPc, Option.some.injEq] at hhand
    subst hhand
    cases hw
    exact tenantKey_keyOf hc _
  | located hr hs =>
    cases hhand
    exact hl key _ (keyInHand_ws.mpr ⟨rfl, encoded, by rw [hr]; rfl⟩)

theorem tenanted_api {d : Call E} {s : World E × Call E} {a : CallAct} (hl : Tenanted (.http d))
    (h : Api.step w i d a = some s) : Tenanted (.http s.2) := by
  rintro key tenantId he
  obtain ⟨rfl, encoded, hhand⟩ := keyInHand_http.mp he
  have hturn := call_turn h
  generalize s.2 = d' at hturn hhand
  cases hturn with
  | empty hnone => rw [hnone] at hhand; cases hhand
  | published hw =>
    cases hhand
    cases hw
    exact ⟨_, rfl⟩
  | directed hw => cases hhand
  | located hp hs =>
    cases hhand
    exact hl key _ (keyInHand_http.mpr ⟨rfl, encoded, by rw [hp]; rfl⟩)

/-- A reader that is on belongs to a connection that is set up, and that one has its own key. -/
theorem tenantKey_of_reader (hc : c.Shaped) (h : c.reader ≠ .off) :
    TenantKey c.topicKey c.identity.tenantId := by
  have hrank : 10 ≤ c.stage.rank := by
    by_contra hlt
    exact h (hc.reader (by omega))
  exact ⟨_, hc.topicKey (by omega)⟩

/-- A connection whose reader works on a publish keeps its identity. -/
theorem identity_kept {a : TaskAct} (hc : c.Shaped) (hr : c.reader ≠ .off)
    (h : Session.step w i c a = some r) : r.2.identity = c.identity := by
  cases a with
  | handshake b =>
    rcases Handshake.stage_step h with ⟨hb, -⟩ | ⟨-, he⟩
    · exact absurd (hc.reader (by rw [rank_of_isHandshake hb]; omega)) hr
    · exact he
  | setup b => exact congrArg Ticket.identity (Setup.step_framed h).ticket
  | writer b => exact congrArg Ticket.identity (Writer.step_framed h).ticket
  | fanout b => exact congrArg Ticket.identity (Fanout.step_framed h).ticket
  | reader b => exact congrArg Ticket.identity (Reader.step_framed h).kept.ticket
  | supervise b => exact congrArg Ticket.identity (Supervise.step_framed h).ticket
  | call b => cases h

theorem tenanted_run {config : Config} {ok : ServerState E → ServerAct E → Prop}
    {p : ServerState E} (h : Runs config ok p) :
    Holds (fun _ w => ∀ q ∈ w.published, TenantKey q.key q.by_.tenantId) (fun _ _ l => Tenanted l)
      p := by
  refine Prog.rely_guarantee ?_ ?_ ?_ ?_ ?_ h
  · -- boot
    exact ⟨nofun, fun i l hl => by simp [boot] at hl⟩
  · -- start
    rintro p request - hI
    refine ⟨hI.shared, fun key tenantId he => ?_⟩
    cases request <;> cases he
  · -- own
    rintro p i l a w' l' hr hI - hl (hs : Task.step p.shared i l a = some (w', l'))
    have hK := hI.each i l hl
    refine ⟨?_, ?_⟩
    · -- what is published
      rcases published_step hs with he | ⟨ch, q, hq, he⟩
      · rw [he]; exact hI.shared
      · rw [he]
        rintro q' hq'
        rcases List.mem_append.mp hq' with hq' | hq'
        · exact hI.shared q' hq'
        · obtain rfl := List.mem_singleton.mp hq'
          exact hK _ _ (keyInHand_of_publication hq)
    · -- what is in hand
      cases l with
      | http d =>
        obtain ⟨d', b, rfl, rfl, hstep⟩ := step_http hs
        exact tenanted_api hK hstep
      | ws c =>
        obtain ⟨c', rfl, hstep⟩ := step_ws hs
        have hsh := shaped_run hr (session_eq_some.mpr hl)
        by_cases hread : ∃ b, a = .reader b
        · obtain ⟨b, rfl⟩ := hread
          exact tenanted_reader (tenantKey_of_reader hsh (reader_on hstep)) hK hstep
        · rintro key tenantId he
          rcases session_reader hstep (fun b e => hread ⟨b, e⟩) with hr' | hr' | hr'
          · rw [Task.keyInHand, hr'] at he
            by_cases hoff : c.reader = .off
            · rw [hoff] at he; cases he
            · refine hK key tenantId ?_
              rw [Task.keyInHand, ← identity_kept hsh hoff hstep]; exact he
          · rw [Task.keyInHand, hr'] at he; cases he
          · rw [Task.keyInHand, hr'] at he; cases he
  · -- other
    exact fun p i l a w' l' j m _ hI _ _ _ hm _ => hI.each j m hm
  · -- env
    rintro p e w' hI he
    cases he
    exact ⟨hI.shared, hI.each⟩

/-! ### Isolation -/

/-- Every topic message that connection `i` received was published by its own tenant. -/
def Isolated (p : ServerState E) (i : ℕ) (c : Session E) : Prop :=
  ∀ x ∈ (p.shared.queues i).placed, ∀ s, x.source = .topic s →
    ∃ q, p.shared.published[s]? = some q ∧ x.msg = .binary q.encoded ∧
      q.by_.tenantId = c.identity.tenantId

/-- No two topics of the tenants have one key, unless the tenants are one. -/
def KeysApart (t₁ t₂ : String) : Prop :=
  ∀ a b, tenantTopic t₁ (normalizeTopic a) = tenantTopic t₂ (normalizeTopic b) → t₁ = t₂

theorem not_collides_self (t : String) : ¬ Collides t t := by
  rintro ⟨s, hs, -⟩
  have hlen := congrArg List.length hs
  rw [List.length_append, List.length_cons] at hlen
  omega

theorem keysApart_iff (t₁ t₂ : String) :
    KeysApart t₁ t₂ ↔ ¬ Collides t₁ t₂ ∧ ¬ Collides t₂ t₁ := by
  constructor
  · rintro h
    by_contra hc
    have hcol : Collides t₁ t₂ ∨ Collides t₂ t₁ := by
      by_contra hn
      exact hc (not_or.mp hn)
    obtain ⟨a, b, hab⟩ := (shared_key_iff t₁ t₂).mpr (Or.inr hcol)
    obtain rfl := h a b hab
    exact not_collides_self t₁ (hcol.elim id id)
  · rintro ⟨h1, h2⟩ a b hab
    rcases (shared_key_iff t₁ t₂).mp ⟨a, b, hab⟩ with he | he | he
    · exact he
    · exact absurd he h1
    · exact absurd he h2

/-- A topic message in a queue was published under the key of the connection. -/
theorem received_key {config : Config} {p : ServerState E} (h : Runs config always p)
    (hc : p.session i = some c) {x : Item E} (hx : x ∈ (p.shared.queues i).placed) {s : ℕ}
    (hs : x.source = .topic s) :
    1 ≤ c.stage.rank ∧ ∃ q, p.shared.published[s]? = some q ∧ x.msg = .binary q.encoded ∧
      q.key = c.topicKey := by
  have hcur := (cursor_run h).session i c hc
  have hmem : (s, x.msg) ∈ forwarded (p.shared.queues i) :=
    List.mem_filterMap.mpr ⟨x, hx, by simp [Item.message?, hs]⟩
  have hmem' := List.mem_append_left c.inHand hmem
  obtain ⟨q, hq, hmsg⟩ := hcur.carried _ hmem'
  have hseq : s ∈ p.shared.wiring.seqsOn c.topicKey c.subMark :=
    hcur.sublist.subset (List.mem_map_of_mem (f := Prod.fst) hmem')
  obtain ⟨-, q', hq', hkey⟩ := Wiring.mem_seqsOn.mp hseq
  have hqq : q = q' := Option.some.inj (hq.symm.trans hq')
  refine ⟨?_, q, hq, hmsg, by rw [hqq]; exact hkey⟩
  by_contra hlt
  have hsh := shaped_run h hc
  obtain ⟨-, -, hnil⟩ := hcur.nothing hsh (hsh.fanout (by omega))
  rw [hnil] at hmem; cases hmem

/-- Two tenants have no key in common exactly when neither collides with the other, and in every run
    a connection that collides with no publisher receives from its own tenant only. -/
theorem tenants_isolated :
    (∀ t₁ t₂, KeysApart t₁ t₂ ↔ ¬ Collides t₁ t₂ ∧ ¬ Collides t₂ t₁) ∧
      ∀ (config : Config) (p : ServerState E), Runs config always p →
        ∀ i c, p.session i = some c →
          (∀ q ∈ p.shared.published, ¬ Collides q.by_.tenantId c.identity.tenantId ∧
            ¬ Collides c.identity.tenantId q.by_.tenantId) → Isolated p i c := by
  refine ⟨keysApart_iff, fun config p h i c hc hapart x hx s hs => ?_⟩
  obtain ⟨hrank, q, hq, hmsg, hkey⟩ := received_key h hc hx hs
  have hqmem : q ∈ p.shared.published := List.mem_of_getElem? hq
  obtain ⟨topic, ht⟩ := (tenanted_run h).shared q hqmem
  rw [hkey, (shaped_run h hc).topicKey hrank] at ht
  exact ⟨q, hq, hmsg, (keysApart_iff _ _).mpr (hapart q hqmem) _ _ ht.symm⟩

/-- Bob receives what alice of his tenant published. -/
theorem tenants_isolated_bob : ∃ (p : ServerState Ext.plain) (c : Session Ext.plain),
    p.session 0 = some c ∧ p.shared.numbers 0 = [0] ∧ Isolated p 0 c := by
  obtain ⟨p, hp, hc⟩ := play_check Config.plain (fun _ _ => true) aliceToBob
    (fun p => p.shared.numbers 0 = [0] && (p.shared.published.all fun q => q.by_.tenantId = "t") &&
      (p.session 0).any fun c => c.identity.tenantId = "t") (by decide +kernel)
  simp only [Bool.and_eq_true, decide_eq_true_eq, List.all_eq_true, Option.any_eq_true] at hc
  obtain ⟨⟨hnum, hpub⟩, c, h0, hid⟩ := hc
  refine ⟨p, c, h0, hnum, tenants_isolated.2 Config.plain p hp.toAlways 0 c h0 fun q hq => ?_⟩
  rw [hpub q hq, hid]
  exact ⟨not_collides_self _, not_collides_self _⟩

/-- A request for a topic of a tenant. -/
def subscribeTo (tenantId topic : String) : Request Ext.plain :=
  .ws (.v4 1) { topic := topic, clientId := none, tenantId := some tenantId, token := none }

/-- Tenant `a:b` subscribes to `c`, and tenant `a` publishes on `b:c`. -/
def acrossTenants : List (ServerAct Ext.plain) :=
  .spawn (subscribeTo "a:b" "c") :: steps 0 (handshakeSteps ++ registerSteps ++ spawnSteps) ++
    .spawn (subscribeTo "a" "b:c") :: steps 1 (handshakeSteps ++ registerSteps ++ spawnSteps ++
      [.reader (.frame (.text "\x7b\"kind\":\"publish\",\"payload\":\"hi\"\x7d")),
        .reader .tenantRate, .reader .locate, .reader .send]) ++
    steps 0 [.fanout .recv, .fanout .forward]

/-- The two have one key, and the message arrives. -/
theorem tenants_not_isolated : ¬ KeysApart "a" "a:b" ∧
    ∃ (p : ServerState Ext.plain) (c : Session Ext.plain), Runs Config.plain always p ∧
      p.session 0 = some c ∧ ¬ Isolated p 0 c := by
  refine ⟨fun h => absurd (h "b:c" "c" (by decide)) (by decide), ?_⟩
  obtain ⟨p, hp, hc⟩ := play_check Config.plain (fun _ _ => true) acrossTenants
    (fun p => (p.shared.published.all fun q => q.by_.tenantId = "a") &&
      ((p.shared.queues 0).placed.any fun x => x.source = .topic 0) &&
      (p.session 0).any fun c => c.identity.tenantId = "a:b") (by decide +kernel)
  simp only [Bool.and_eq_true, decide_eq_true_eq, List.all_eq_true, List.any_eq_true,
    Option.any_eq_true] at hc
  obtain ⟨⟨hpub, x, hx, hsrc⟩, c, h0, hid⟩ := hc
  refine ⟨p, c, hp.toAlways, h0, fun hiso => ?_⟩
  obtain ⟨q, hq, -, htenant⟩ := hiso x hx 0 hsrc
  rw [hpub q (List.mem_of_getElem? hq), hid] at htenant
  exact absurd htenant (by decide)

end WsServer
