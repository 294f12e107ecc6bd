import WsServer.Registry

/-! What the registry guarantees to a client. Entries always name a live connection of the right
    client, so a direct message reaches nobody else. Two guarantees fail: the `get` and the `remove` of
    `unregister_client` are two calls, so a login between them is lost, and one handle a client is not
    enough when the last of several connections closes first. Both are proved under the exact
    condition that rules this out. -/

namespace WsServer

open Lib

variable {E : Ext}

/-! ### Entries are sound -/

/-- Every entry is that of an online connection of its client, ids of connections that left are gone,
    and a direct message goes into the queue of one such connection and no other. -/
structure SoundRegistry (p : ServerState E) : Prop where
  entry : ∀ clientId tenantId handle,
    p.shared.app.clients.lookup (tenantId, clientId) = some handle →
      ∃ c, p.session handle.sender = some c ∧ c.identity = ⟨clientId, tenantId⟩ ∧
        c.connectionId = handle.connectionId ∧ c.phase.isOnline = true
  gone : ∀ i c, p.session i = some c → c.phase = .left →
    ∀ key handle, p.shared.app.clients.lookup key = some handle →
      handle.connectionId ≠ c.connectionId
  sent : ∀ clientId tenantId encoded sender w',
    p.shared.sendToClient clientId tenantId encoded sender = (true, w') →
      ∃ j c, p.session j = some c ∧ c.identity = ⟨clientId, tenantId⟩ ∧ c.phase.isOnline = true ∧
        (w'.queues j).buf = (p.shared.queues j).buf ++ [⟨.binary encoded, .direct sender⟩] ∧
        ∀ k, k ≠ j → w'.queues k = p.shared.queues k

theorem isOnline_of_holds {ph : Phase} (h : ph.holds = true) (hq : ph ≠ .quit) :
    ph.isOnline = true := by
  cases ph with
  | quit => exact absurd rfl hq
  | registered | matched own => rfl
  | before | numbered | left => cases h

theorem entry_online {config : Config} {p : ServerState E}
    (hready : ∀ topic clientId,
      (encodeServerEvent (E := E) (.ready topic clientId)).isSome = true)
    (h : Runs config always p) {clientId tenantId : String} {handle : ClientHandle}
    (hl : p.shared.app.clients.lookup (tenantId, clientId) = some handle) :
    ∃ c, p.session handle.sender = some c ∧ c.identity = ⟨clientId, tenantId⟩ ∧
      c.connectionId = handle.connectionId ∧ c.phase.isOnline = true := by
  obtain ⟨c, hc, hp, hkey, hh⟩ := entry_session h hl
  refine ⟨c, hc, ?_, (congrArg ClientHandle.connectionId hh).symm,
    isOnline_of_holds hp (not_quit hready h hc)⟩
  have ht : tenantId = c.identity.tenantId := congrArg Prod.fst hkey
  have hcl : clientId = c.identity.clientId := congrArg Prod.snd hkey
  rw [ht, hcl]

theorem sound_registry {config : Config} {p : ServerState E}
    (hready : ∀ topic clientId,
      (encodeServerEvent (E := E) (.ready topic clientId)).isSome = true)
    (hlt : p.shared.takers.length < 2 ^ 64) (h : Runs config always p) : SoundRegistry p := by
  refine ⟨fun clientId tenantId handle hl => entry_online hready h hl, ?_, ?_⟩
  · rintro i c hc hp key handle hl hid
    obtain ⟨d, hd, hholds, -, hh⟩ := entry_session h hl
    have hdid : d.connectionId = handle.connectionId := (congrArg ClientHandle.connectionId hh).symm
    have hne : d.phase ≠ .before := by rintro hb; rw [hb] at hholds; cases hholds
    have hi := session_of_id h hlt hd hc hne (by simp [hp]) (hdid.trans hid)
    rw [hi, hc, Option.some.injEq] at hd
    subst hd
    rw [hp] at hholds; cases hholds
  · rintro clientId tenantId encoded sender w' hs
    unfold World.sendToClient at hs
    split at hs
    · rename_i handle hl
      obtain ⟨c, hc, hid, -, hon⟩ := entry_online hready h hl
      rcases World.trySend_cases p.shared handle.sender ⟨.binary encoded, .direct sender⟩ with
        ⟨q, hq, ht⟩ | ⟨-, ht⟩
      · rw [ht, Prod.mk.injEq] at hs
        obtain ⟨-, rfl⟩ := hs
        obtain ⟨-, -, rfl⟩ := Queue.trySend_ok hq
        exact ⟨handle.sender, c, hc, hid, hon, by simp, fun k hk => by simp [hk]⟩
      · rw [ht] at hs; cases hs
    · cases hs

/-- A client of the tenant `t`. -/
def loginAs (clientId : String) : Request Ext.plain :=
  .ws (.v4 1) { topic := "public", clientId := some clientId, tenantId := some "t", token := none }

/-- Alice logs in and registers. -/
def aliceOnline : List (ServerAct Ext.plain) :=
  .spawn (loginAs "alice") :: steps 0 (handshakeSteps ++ registerSteps)

theorem sound_registry_alice : ∃ p : ServerState Ext.plain,
    p.shared.app.clients.lookup ("t", "alice") = some ⟨1, 0⟩ ∧ SoundRegistry p := by
  obtain ⟨p, hp, hc⟩ := play_check Config.plain (fun _ _ => true) aliceOnline
    (fun p => p.shared.app.clients.lookup ("t", "alice") = some ⟨1, 0⟩ &&
      p.shared.takers.length < 2 ^ 64) (by decide +kernel)
  rw [Bool.and_eq_true, decide_eq_true_eq, decide_eq_true_eq] at hc
  exact ⟨p, hc.1, sound_registry (fun _ _ => rfl) hc.2 hp.toAlways⟩

/-! ### A login that is lost -/

/-- The latest handle registered under a key. -/
def Registry.lastRegistered (g : Registry) (key : String × String) : Option ClientHandle :=
  ((g.registrations.filter fun e => e.1 = key).getLast?).map (·.2)

/-- `unregister_client` is about to remove no entry but its own. -/
def RemovesOwn (p : ServerState E) : Prop :=
  ∀ i c handle, p.session i = some c → c.phase = .matched true →
    p.shared.app.clients.lookup c.key = some handle → handle.connectionId = c.connectionId

/-- The connection that registered last under a key is registered until it unregisters. -/
def LastStays (p : ServerState E) : Prop :=
  ∀ key handle c, p.shared.registry.lastRegistered key = some handle →
    p.session handle.sender = some c → c.phase.isIn = true →
    p.shared.app.clients.lookup key = some handle

def NoLostRegistration (p : ServerState E) : Prop := RemovesOwn p ∧ LastStays p

/-- Nobody registers under the key of a connection that stands between the `get` and the `remove` of
    `unregister_client`, and the ids do not come round. -/
def registersApart (p : ServerState E) : ServerAct E → Bool
  | .run i (.setup .register) =>
    match p.session i with
    | some c => p.threads.all fun
      | .ws d => !(d.phase = .matched true && d.key = c.key)
      | .http _ => true
    | none => true
  | .run _ (.setup .number) => p.shared.takers.length + 1 < 2 ^ 64
  | _ => true

theorem lastRegistered_register (g : Registry) (key key' : String × String) (handle : ClientHandle) :
    (g.register key handle).lastRegistered key' =
      if key' = key then some handle else g.lastRegistered key' := by
  by_cases h : key' = key
  · subst h; simp [Registry.lastRegistered, Registry.register]
  · have h' : ¬ key = key' := fun e => h e.symm
    simp [Registry.lastRegistered, Registry.register, h, h']

theorem lastRegistered_mem {g : Registry} {key : String × String} {handle : ClientHandle}
    (h : g.lastRegistered key = some handle) : ∃ e ∈ g.registrations, e.2 = handle := by
  rw [Registry.lastRegistered, Option.map_eq_some_iff] at h
  obtain ⟨e, he, rfl⟩ := h
  exact ⟨e, List.mem_of_mem_filter (List.mem_of_mem_getLast? he), rfl⟩

/-- The two parts of `NoLostRegistration` for one connection. -/
structure Safe (g : Registry) (i : ℕ) (c : Session E) : Prop where
  own : c.phase = .matched true → ∀ handle, g.clients.lookup c.key = some handle →
    handle.connectionId = c.connectionId
  last : c.phase.isIn = true → ∀ key handle, g.lastRegistered key = some handle →
    handle.sender = i → g.clients.lookup key = some handle

variable {w : World E} {i : ℕ} {c : Session E} {r : World E × Session E}

theorem Safe.still {g : Registry} {c' : Session E} (h : Safe g i c)
    (hm : c'.phase = .matched true → c.phase = .matched true ∧ c'.key = c.key ∧
      c'.handle i = c.handle i)
    (hin : c'.phase.isIn = true → c.phase.isIn = true) : Safe g i c' := by
  refine ⟨fun hp handle hl => ?_, fun hp => h.last (hin hp)⟩
  obtain ⟨hp', hkey, hh⟩ := hm hp
  rw [hkey] at hl
  rw [Session.handle_inj hh]
  exact h.own hp' handle hl

/-- The connection's own step. -/
theorem Safe.step {a : TaskAct} (h : Safe w.registry i c) (ho : Owned w.registry i c)
    (hstep : RegistryStep w i c a r) : Safe r.1.registry i r.2 := by
  cases hstep with
  | idle reg phase who =>
    rw [reg]
    refine h.still (fun hp => ?_) (by rw [phase]; exact id)
    rw [phase] at hp
    rcases who with hb | hsame
    · rw [hb] at hp; cases hp
    · exact ⟨hp, hsame⟩
  | number act phase phase' reg id =>
    refine ⟨?_, ?_⟩ <;> rw [phase'] <;> rintro hp <;> cases hp
  | register act phase phase' reg key handle =>
    rw [reg]
    refine ⟨fun hp => (by rw [phase'] at hp; cases hp), fun _ key' e hl hs => ?_⟩
    rw [lastRegistered_register] at hl
    rw [Registry.register, Dict.lookup_insert_if]
    split
    · rw [if_pos ‹_›] at hl; exact hl
    · rw [if_neg ‹_›] at hl
      obtain ⟨f, hf, rfl⟩ := lastRegistered_mem hl
      exact absurd hs (ho.fresh (Or.inr phase) f hf)
  | quit phase phase' encode reg key handle =>
    rw [reg]
    exact h.still (fun hp => by rw [phase'] at hp; cases hp) (fun _ => by rw [phase]; rfl)
  | get phase phase' reg key handle =>
    rw [reg]
    refine ⟨fun hp e hl => ?_, fun hp => by rw [phase'] at hp; cases hp⟩
    rw [phase', Phase.matched.injEq] at hp
    obtain ⟨e', hl', hid⟩ := (isRegistered_iff _ _ _ _).mp hp
    rw [key, show w.registry.clients.lookup c.key = some e' from hl', Option.some.injEq] at hl
    rw [Session.handle_inj handle, ← hl, hid]
  | remove own phase phase' reg key handle =>
    refine ⟨?_, ?_⟩ <;> rw [phase'] <;> rintro hp <;> cases hp

/-- Another connection's step, under `registersApart`. -/
theorem Safe.other {config : Config} {p : ServerState E} {a : TaskAct} {j : ℕ} {d : Session E}
    {r : World E × Session E} (hr : Runs config (fun p a => registersApart p a = true) p)
    (hlt : p.shared.registry.takers.length < 2 ^ 64)
    (hok : registersApart p (.run i a) = true) (hne : j ≠ i)
    (hc : p.session i = some c) (hd : p.session j = some d) (hown : Safe p.shared.registry i c)
    (h : Safe p.shared.registry j d) (hstep : RegistryStep p.shared i c a r) :
    Safe r.1.registry j d := by
  cases hstep with
  | idle reg => rw [reg]; exact h
  | quit phase phase' encode reg => rw [reg]; exact h
  | get phase phase' reg => rw [reg]; exact h
  | number act phase phase' reg => rw [reg]; exact ⟨h.own, h.last⟩
  | register act phase phase' reg =>
    rw [reg]
    refine ⟨fun hp handle hl => ?_, fun hin key handle hl hs => ?_⟩
    · have hkey : d.key ≠ c.key := by
        subst act
        simp only [registersApart, hc] at hok
        have hdj := List.all_eq_true.mp hok _ (List.mem_of_getElem? (session_eq_some.mp hd))
        simpa [hp] using hdj
      rw [Registry.register, Dict.lookup_insert_if, if_neg hkey] at hl
      exact h.own hp handle hl
    · rw [lastRegistered_register] at hl
      rw [Registry.register, Dict.lookup_insert_if]
      split
      · rw [if_pos ‹_›, Option.some.injEq] at hl
        subst hl
        exact absurd hs.symm hne
      · rw [if_neg ‹_›] at hl
        exact h.last hin key handle hl hs
  | remove own phase phase' reg =>
    rw [reg]
    cases own with
    | false => exact h
    | true =>
      rw [if_pos rfl]
      refine ⟨fun hp handle hl => ?_, fun hin key handle hl hs => ?_⟩
      · rw [Registry.erase, Dict.lookup_erase_if] at hl
        split at hl
        · cases hl
        · exact h.own hp handle hl
      · have hl' := h.last hin key handle hl hs
        rw [Registry.erase, Dict.lookup_erase_if]
        split
        · -- the entry of `j` would carry the id of `i`
          subst key
          have hid := hown.own phase handle hl'
          obtain ⟨hp, -, hh⟩ := ((owned_run hr).session j d hd).entry _ _ hl' hs
          have hid' : handle.connectionId = d.connectionId :=
            congrArg ClientHandle.connectionId hh
          have hpd : d.phase ≠ .before := by rintro hb; rw [hb] at hp; cases hp
          exact absurd (session_of_id hr hlt hd hc hpd (by simp [phase]) (hid'.symm.trans hid)) hne
        · exact hl'

theorem safe_run {config : Config} {p : ServerState E}
    (h : Runs config (fun p a => registersApart p a = true) p) :
    Keeps (fun _ w => w.registry.takers.length < 2 ^ 64) (fun w i c => Safe w.registry i c) p := by
  refine registry_rule (J := fun _ g => g.takers.length < 2 ^ 64) (by simp [Registry.empty])
    (fun _ _ hJ => hJ) ?_ ?_ ?_ h
  · rintro n g ip query -
    exact ⟨by rintro ⟨⟩, by rintro ⟨⟩⟩
  · rintro p i c a r hr hI hok hc hstep
    refine ⟨?_, (hI.session i c hc).step ((owned_run hr).session i c hc) hstep⟩
    have hJ := hI.shared
    cases hstep with
    | idle reg => rw [reg]; exact hJ
    | quit phase phase' encode reg => rw [reg]; exact hJ
    | get phase phase' reg => rw [reg]; exact hJ
    | register act phase phase' reg => rw [reg]; exact hJ
    | remove own phase phase' reg => rw [reg]; cases own <;> exact hJ
    | number act phase phase' reg =>
      subst act
      have hlt : p.shared.takers.length + 1 < 2 ^ 64 := of_decide_eq_true hok
      rw [reg, Registry.take, List.length_append]
      exact hlt
  · rintro p i c a r j d hr hI hok hne hc hd hstep
    exact Safe.other hr hI.shared hok hne hc hd (hI.session i c hc) (hI.session j d hd) hstep

/-- As long as no login falls between the two calls of an `unregister_client`, none is lost. -/
theorem no_lost_registration {config : Config} {p : ServerState E}
    (h : Runs config (fun p a => registersApart p a = true) p) : NoLostRegistration p := by
  refine ⟨fun i c handle hc hp hl => ((safe_run h).session i c hc).own hp handle hl, ?_⟩
  rintro key handle c hl hc hin
  exact ((safe_run h).session _ c hc).last hin key handle hl rfl

/-- Alice logs in, leaves, and logs in again after that. -/
def aliceTwice : List (ServerAct Ext.plain) :=
  aliceOnline ++ steps 0 (spawnSteps ++ teardownSteps ++ [.supervise .unregisterRemove]) ++
    .spawn (loginAs "alice") :: steps 1 (handshakeSteps ++ registerSteps)

theorem no_lost_registration_alice : ∃ p : ServerState Ext.plain,
    p.shared.registry.lastRegistered ("t", "alice") = some ⟨2, 1⟩ ∧ NoLostRegistration p := by
  obtain ⟨p, hp, hc⟩ := play_check Config.plain registersApart aliceTwice
    (fun p => p.shared.registry.lastRegistered ("t", "alice") = some ⟨2, 1⟩) (by decide +kernel)
  exact ⟨p, of_decide_eq_true hc, no_lost_registration hp⟩

/-- Alice leaves, and logs in again while her first `unregister_client` is half done. -/
def aliceBetween : List (ServerAct Ext.plain) :=
  aliceOnline ++ steps 0 (spawnSteps ++ teardownSteps) ++
    .spawn (loginAs "alice") :: steps 1 (handshakeSteps ++ registerSteps)

/-- The first connection removes the entry of the second, which is then unknown while it is online. -/
theorem registration_lost :
    (∃ p : ServerState Ext.plain, Runs Config.plain always p ∧ ¬ RemovesOwn p) ∧
      ∃ p : ServerState Ext.plain, Runs Config.plain always p ∧ ¬ LastStays p := by
  constructor
  · obtain ⟨p, hp, hc⟩ := play_check Config.plain (fun _ _ => true) aliceBetween
      (fun p => match p.session 0 with
        | some c => c.phase = .matched true && c.connectionId = 1 &&
            p.shared.app.clients.lookup c.key = some ⟨2, 1⟩
        | none => false) (by decide +kernel)
    refine ⟨p, hp.toAlways, fun hown => ?_⟩
    split at hc
    · rename_i c hs
      simp only [Bool.and_eq_true, decide_eq_true_eq] at hc
      obtain ⟨⟨hph, hid⟩, hl⟩ := hc
      have heq := hown 0 c ⟨2, 1⟩ hs hph hl
      rw [hid] at heq
      exact absurd heq (by decide)
    · cases hc
  · obtain ⟨p, hp, hc⟩ := play_check Config.plain (fun _ _ => true)
      (aliceBetween ++ steps 0 [.supervise .unregisterRemove])
      (fun p => match p.session 1 with
        | some c => c.phase.isIn && p.shared.registry.lastRegistered ("t", "alice") = some ⟨2, 1⟩ &&
            p.shared.app.clients.lookup ("t", "alice") = none
        | none => false) (by decide +kernel)
    refine ⟨p, hp.toAlways, fun hlast => ?_⟩
    split at hc
    · rename_i c hs
      simp only [Bool.and_eq_true, decide_eq_true_eq] at hc
      obtain ⟨⟨hin, hreg⟩, hl⟩ := hc
      have hsome := hlast _ _ c hreg hs hin
      rw [hl] at hsome; cases hsome
    · cases hc

/-! ### Several connections of one client -/

/-- The calls that write the registry, each run without interruption. -/
inductive RegistryCall where
  | register (clientId tenantId : String) (handle : ClientHandle)
  | unregister (clientId tenantId : String) (connectionId : UInt64)

def RegistryCall.run (app : AppState E) : RegistryCall → AppState E
  | .register clientId tenantId handle => app.registerClient clientId tenantId handle
  | .unregister clientId tenantId connectionId =>
    app.unregisterClient clientId tenantId connectionId

/-- What a call does to the connections that registered and have not unregistered since. -/
def RegistryCall.online (on : List ((String × String) × ClientHandle)) :
    RegistryCall → List ((String × String) × ClientHandle)
  | .register clientId tenantId handle => on ++ [((tenantId, clientId), handle)]
  | .unregister clientId tenantId connectionId =>
    on.filter fun e => !(e.1 = (tenantId, clientId) && e.2.connectionId = connectionId)

/-- What a call does to the handle registered last under a key. -/
def RegistryCall.last (key : String × String) (last : Option ClientHandle) :
    RegistryCall → Option ClientHandle
  | .register clientId tenantId handle => if key = (tenantId, clientId) then some handle else last
  | .unregister _ _ _ => last

def online (calls : List RegistryCall) : List ((String × String) × ClientHandle) :=
  calls.foldl RegistryCall.online []

def lastHandle (key : String × String) (calls : List RegistryCall) : Option ClientHandle :=
  calls.foldl (RegistryCall.last key) none

/-- An online client is found, and by the handle of an online connection of it. -/
def OnlineReachable (app : AppState E) (calls : List RegistryCall) (key : String × String) : Prop :=
  (∃ handle, (key, handle) ∈ online calls) →
    ∃ handle, (calls.foldl RegistryCall.run app).clients.lookup key = some handle ∧
      (key, handle) ∈ online calls

/-- `unregister_client` erases the entry if it carries the id. -/
theorem lookup_unregister (app : AppState E) (clientId tenantId : String) (connectionId : UInt64)
    (key : String × String) (handle : ClientHandle) :
    (app.unregisterClient clientId tenantId connectionId).clients.lookup key = some handle ↔
      app.clients.lookup key = some handle ∧
        ¬ (key = (tenantId, clientId) ∧ handle.connectionId = connectionId) := by
  unfold AppState.unregisterClient
  by_cases hreg : app.isRegistered clientId tenantId connectionId = true
  · obtain ⟨h, hl, hid⟩ := (isRegistered_iff _ _ _ _).mp hreg
    rw [if_pos hreg, AppState.removeClient, Dict.lookup_erase_if]
    by_cases hk : key = (tenantId, clientId)
    · subst hk
      rw [if_pos rfl, hl]
      constructor
      · rintro hn; cases hn
      · rintro ⟨he, hne⟩
        cases he
        exact absurd ⟨rfl, hid⟩ hne
    · rw [if_neg hk]
      exact ⟨fun h => ⟨h, fun hc => hk hc.1⟩, And.left⟩
  · rw [if_neg hreg]
    refine ⟨fun hl => ⟨hl, ?_⟩, And.left⟩
    rintro ⟨rfl, hid⟩
    exact hreg ((isRegistered_iff _ _ _ _).mpr ⟨handle, hl, hid⟩)

/-- The entry of a client is the handle registered last, as long as its connection is online. -/
theorem lookup_iff_last (app : AppState E) (happ : app.clients = ∅) (calls : List RegistryCall)
    (key : String × String) (handle : ClientHandle) :
    (calls.foldl RegistryCall.run app).clients.lookup key = some handle ↔
      lastHandle key calls = some handle ∧ (key, handle) ∈ online calls := by
  induction calls using List.reverseRecOn with
  | nil => simp [happ, lastHandle]
  | append_singleton calls call ih =>
    rw [lastHandle, online, List.foldl_append, List.foldl_append, List.foldl_append]
    rw [lastHandle, online] at ih
    cases call with
    | register clientId tenantId h =>
      simp only [List.foldl_cons, List.foldl_nil, RegistryCall.run, RegistryCall.last,
        RegistryCall.online, AppState.registerClient, Dict.lookup_insert_if]
      split
      · subst key
        simp only [Option.some.injEq, List.mem_append, List.mem_singleton, Prod.mk.injEq, true_and]
        constructor
        · rintro rfl; exact ⟨rfl, Or.inr rfl⟩
        · exact And.left
      · rename_i hk
        rw [ih, List.mem_append, List.mem_singleton, Prod.mk.injEq]
        simp [hk]
    | unregister clientId tenantId connectionId =>
      simp only [List.foldl_cons, List.foldl_nil, RegistryCall.run, RegistryCall.last,
        RegistryCall.online, lookup_unregister, ih, List.mem_filter, and_assoc]
      simp [← not_and_or]

/-- Exactly when the connection that registered last outlives the others is every online client
    reachable. -/
theorem reachable_iff (config : Config) (calls : List RegistryCall) (key : String × String) :
    OnlineReachable (AppState.new E config) calls key ↔
      ((∃ handle, (key, handle) ∈ online calls) →
        ∃ handle, lastHandle key calls = some handle ∧ (key, handle) ∈ online calls) := by
  have hl := lookup_iff_last (AppState.new E config) rfl calls key
  constructor
  · rintro h hon
    obtain ⟨handle, hlook, hmem⟩ := h hon
    exact ⟨handle, ((hl handle).mp hlook).1, hmem⟩
  · rintro h hon
    obtain ⟨handle, hlast, hmem⟩ := h hon
    exact ⟨handle, (hl handle).mpr ⟨hlast, hmem⟩, hmem⟩

/-- Two connections of alice; the newer one closes first. -/
theorem online_unreachable : ¬ OnlineReachable (AppState.new Ext.plain Config.plain)
    [.register "alice" "t" ⟨1, 0⟩, .register "alice" "t" ⟨2, 1⟩, .unregister "alice" "t" 2]
    ("t", "alice") := by
  rintro h
  obtain ⟨handle, hl, -⟩ := h ⟨⟨1, 0⟩, by decide⟩
  revert hl
  rw [lookup_iff_last _ rfl]
  rintro ⟨hlast, hmem⟩
  have hh : some handle = some ⟨2, 1⟩ := hlast.symm.trans (by decide)
  rw [Option.some.inj hh] at hmem
  exact absurd hmem (by decide)

end WsServer
