import WsServer.Frames

/-! The client registry over whole runs. `RegistryStep` says once what a step of a connection does to
    the registry; every invariant here is read off it. Ids are handed out in the order of `takers`, an
    entry is owned by the connection whose queue it names, and only the owner's `unregister_client`,
    a later registration under the same key, or a teardown that matched the entry before it was
    replaced can take it away. -/

namespace WsServer

open Lib

variable {E : Ext}

/-- What a stage says about the registry: `left` is past `unregister_client`, `quit` is past an early
    return of `connection_loop` that skipped it. -/
inductive Phase where
  | before | numbered | registered | matched (own : Bool) | left | quit
  deriving DecidableEq

def Stage.phase : Stage → Phase
  | .numbered => .numbered
  | .registered | .readied | .writerSpawned | .fanoutSpawned | .running | .selected _ | .joined =>
    .registered
  | .matched own => .matched own
  | .returned true | .closed true => .left
  | .returned false | .closed false => .quit
  | _ => .before

/-- `unregister_client` has not been called. -/
def Phase.isIn : Phase → Bool
  | .registered | .quit => true
  | _ => false

namespace Session

def phase (c : Session E) : Phase := c.stage.phase

/-- The registry key of a connection. -/
def key (c : Session E) : String × String := (c.identity.tenantId, c.identity.clientId)

/-- The entry that `register_client` makes for connection `i`. -/
def handle (c : Session E) (i : ℕ) : ClientHandle := ⟨c.connectionId, i⟩

end Session

variable {w : World E} {i : ℕ} {c : Session E} {r : World E × Session E}

/-- What step `a` of connection `i` does to the registry. -/
inductive RegistryStep (w : World E) (i : ℕ) (c : Session E) (a : TaskAct)
    (r : World E × Session E) : Prop
  | idle (reg : r.1.registry = w.registry) (phase : r.2.phase = c.phase)
      (who : c.phase = .before ∨ (r.2.key = c.key ∧ r.2.handle i = c.handle i))
  | number (act : a = .setup .number) (phase : c.phase = .before) (phase' : r.2.phase = .numbered)
      (reg : r.1.registry = w.registry.take i) (id : r.2.connectionId = w.app.nextConnectionId)
  | register (act : a = .setup .register) (phase : c.phase = .numbered)
      (phase' : r.2.phase = .registered) (reg : r.1.registry = w.registry.register c.key (c.handle i))
      (key : r.2.key = c.key) (handle : r.2.handle i = c.handle i)
  | quit (phase : c.phase = .registered) (phase' : r.2.phase = .quit)
      (encode : encodeServerEvent (E := E)
        (.ready (extractTopic c.topicKey) c.identity.clientId) = none)
      (reg : r.1.registry = w.registry) (key : r.2.key = c.key)
      (handle : r.2.handle i = c.handle i)
  | get (phase : c.phase = .registered)
      (phase' : r.2.phase = .matched
        (w.app.isRegistered c.identity.clientId c.identity.tenantId c.connectionId))
      (reg : r.1.registry = w.registry) (key : r.2.key = c.key)
      (handle : r.2.handle i = c.handle i)
  | remove (own : Bool) (phase : c.phase = .matched own) (phase' : r.2.phase = .left)
      (reg : r.1.registry = if own then w.registry.erase c.key else w.registry)
      (key : r.2.key = c.key) (handle : r.2.handle i = c.handle i)

/-- Ticket, seat and phase decide key and handle. -/
theorem RegistryStep.still {a : TaskAct} (reg : r.1.registry = w.registry)
    (ticket : r.2.ticket = c.ticket)
    (seat : r.2.seat = c.seat) (phase : r.2.phase = c.phase) : RegistryStep w i c a r := by
  have hid : r.2.identity = c.identity := congrArg Ticket.identity ticket
  have hcid : r.2.connectionId = c.connectionId := congrArg Seat.connectionId seat
  refine .idle reg phase (Or.inr ⟨?_, ?_⟩)
  · rw [Session.key, Session.key, hid]
  · rw [Session.handle, Session.handle, hcid]

theorem phase_of_isHandshake {s : Stage} (h : s.isHandshake = true) : s.phase = .before := by
  cases s <;> first | rfl | cases h

theorem handshake_registry {a : HandshakeAct} (h : Handshake.step w c a = some r) :
    RegistryStep w i c (.handshake a) r := by
  have hf := Handshake.step_framed h
  have hcid : r.2.connectionId = c.connectionId := congrArg Seat.connectionId hf.seat
  rcases Handshake.stage_step h with ⟨hb, hb'⟩ | ⟨hs, hid⟩
  · have hp : c.phase = .before := phase_of_isHandshake hb
    have hp' : r.2.phase = .before := phase_of_isHandshake hb'
    exact .idle hf.registry (hp'.trans hp.symm) (Or.inl hp)
  · refine .idle hf.registry (congrArg Stage.phase hs) (Or.inr ⟨?_, ?_⟩)
    · rw [Session.key, Session.key, hid]
    · rw [Session.handle, Session.handle, hcid]

theorem setup_registry {a : SetupAct} (h : Setup.step w i c a = some r) :
    RegistryStep w i c (.setup a) r := by
  cases a <;> simp only [Setup.step, Option.ite_none_right_eq_some, Option.some.injEq] at h <;>
    obtain ⟨hs, rfl⟩ := h <;> have hp : c.phase = c.stage.phase := rfl <;> rw [hs] at hp
  case number => exact .number rfl hp rfl rfl rfl
  case register => exact .register rfl hp rfl rfl rfl rfl
  case openQueue =>
    simp only [Setup.openQueue]
    split <;> exact .idle rfl hp.symm (Or.inl hp)
  case locate =>
    unfold Setup.locate
    split
    · rename_i h
      exact .idle (congrArg Books.registry (World.books_topicSender h)) hp.symm (Or.inl hp)
    · exact .idle rfl hp.symm (Or.inl hp)
  case ready =>
    unfold Setup.ready
    split
    · exact .idle (congrArg Books.registry (World.books_sendEncoded w i _ _)) hp.symm
        (Or.inr ⟨rfl, rfl⟩)
    · exact .quit hp rfl ‹_› rfl rfl rfl
  case accept | subscribe => exact .idle rfl hp.symm (Or.inl hp)
  all_goals exact .idle rfl hp.symm (Or.inr ⟨rfl, rfl⟩)

theorem supervise_registry {a : SuperviseAct} (h : Supervise.step w i c a = some r) :
    RegistryStep w i c (.supervise a) r := by
  have hf := Supervise.step_framed h
  cases a with
  | select t =>
    simp only [Supervise.step, Option.ite_none_right_eq_some, Option.some.injEq] at h
    obtain ⟨⟨hs, -⟩, rfl⟩ := h
    exact .still rfl rfl rfl (by rw [Session.phase, Session.phase, hs]; rfl)
  | cancel t =>
    simp only [Supervise.step] at h
    split at h
    · split at h
      · obtain ⟨-, hreg, hs⟩ := Supervise.cancel_spec h
        exact .still hreg hf.ticket hf.seat (congrArg Stage.phase hs)
      · cases h
    · cases h
  | join =>
    simp only [Supervise.step] at h
    split at h
    · rename_i hs
      split at h <;> cases h
      exact .still rfl rfl rfl (by rw [Session.phase, Session.phase, hs]; rfl)
    · cases h
  | unregisterGet =>
    simp only [Supervise.step, Option.ite_none_right_eq_some, Option.some.injEq] at h
    obtain ⟨hs, rfl⟩ := h
    exact .get (by rw [Session.phase, hs]; rfl) rfl rfl rfl rfl
  | unregisterRemove =>
    simp only [Supervise.step] at h
    split at h
    · rename_i own hs
      cases h
      refine .remove own (by rw [Session.phase, hs]; rfl) rfl ?_ rfl rfl
      cases own <;> rfl
    · cases h
  | close =>
    simp only [Supervise.step] at h
    split at h
    · rename_i b hs
      cases h
      exact .still rfl rfl rfl (by rw [Session.phase, Session.phase, hs]; cases b <;> rfl)
    · cases h

theorem registry_step {a : TaskAct} (h : Session.step w i c a = some r) :
    RegistryStep w i c a r := by
  cases a with
  | handshake b => exact handshake_registry h
  | setup b => exact setup_registry h
  | supervise b => exact supervise_registry h
  | writer b =>
    have hf := Writer.step_framed h
    exact .still (congrArg Books.registry hf.books) hf.ticket hf.seat (congrArg Stage.phase hf.stage)
  | fanout b =>
    have hf := Fanout.step_framed h
    exact .still (congrArg Books.registry hf.books) hf.ticket hf.seat (congrArg Stage.phase hf.stage)
  | reader b =>
    have hf := Reader.step_framed h
    exact .still (congrArg Books.registry hf.books) hf.kept.ticket hf.kept.seat
      (congrArg Stage.phase hf.kept.stage)
  | call b => cases h

/-- The rely-guarantee rule for invariants of the registry. -/
theorem registry_rule {config : Config} {ok : ServerState E → ServerAct E → Prop}
    {J : ℕ → Registry → Prop} {K : Registry → ℕ → Session E → Prop} {p : ServerState E}
    (init : J 0 .empty) (grow : ∀ n g, J n g → J (n + 1) g)
    (arrive : ∀ n g ip query, J n g → K g n (Session.arrive ip query))
    (own : ∀ p i c a r, Runs config ok p →
      Keeps (fun n w => J n w.registry) (fun w i c => K w.registry i c) p → ok p (.run i a) →
      p.session i = some c → RegistryStep p.shared i c a r →
      J p.threads.length r.1.registry ∧ K r.1.registry i r.2)
    (other : ∀ p i c a r j d, Runs config ok p →
      Keeps (fun n w => J n w.registry) (fun w i c => K w.registry i c) p → ok p (.run i a) →
      j ≠ i → p.session i = some c → p.session j = some d → RegistryStep p.shared i c a r →
      K r.1.registry j d)
    (h : Runs config ok p) : Keeps (fun n w => J n w.registry) (fun w i c => K w.registry i c) p := by
  refine session_rule init (fun n w => grow n w.registry)
    (fun _ ip query _ hI => arrive _ _ ip query hI.shared) ?_ ?_ ?_ (fun _ _ _ hJ => hJ)
    (fun _ _ _ _ hK => hK) h
  · rintro p i c a r hr hI hok hc hs
    exact own p i c a r hr hI hok hc (registry_step hs)
  · rintro p i d a r - hI - hs
    have hreg : r.1.registry = p.shared.registry :=
      congrArg Books.registry (Api.step_framed hs).books
    rw [hreg]; exact hI.shared
  · rintro p i l a w' l' j d hr hI hok hne hl hd hs
    cases l with
    | http b =>
      obtain ⟨b', act, rfl, rfl, hstep⟩ := step_http hs
      have hreg : w'.registry = p.shared.registry :=
        congrArg Books.registry (Api.step_framed hstep).books
      rw [hreg]; exact hI.session j d hd
    | ws c =>
      obtain ⟨c', rfl, hstep⟩ := step_ws hs
      exact other p i c a (w', c') j d hr hI hok hne (session_eq_some.mpr hl) hd
        (registry_step hstep)

/-! ### Ids and owners -/

/-- The next id is one more than the number of ids taken, in 64 bits. -/
def NextId (_ : ℕ) (g : Registry) : Prop :=
  g.nextConnectionId = UInt64.ofNat (g.takers.length + 1)

theorem NextId.take {n : ℕ} {g : Registry} (h : NextId n g) (i : ℕ) : NextId n (g.take i) := by
  have hn : g.nextConnectionId = UInt64.ofNat (g.takers.length + 1) := h
  calc (g.take i).nextConnectionId = g.nextConnectionId + UInt64.ofNat 1 := rfl
    _ = UInt64.ofNat (g.takers.length + 1 + 1) := by rw [hn, ← UInt64.ofNat_add]
    _ = UInt64.ofNat ((g.take i).takers.length + 1) := by simp [Registry.take]

/-- A connection that took the `k`-th id carries it. -/
def Numbered (g : Registry) (i : ℕ) (c : Session E) : Prop :=
  c.phase ≠ .before → ∃ k, g.takers[k]? = some i ∧ c.connectionId = UInt64.ofNat (k + 1)

theorem Numbered.of_extension {g g' : Registry} (h : Numbered g i c) (hg : g.takers <+: g'.takers) :
    Numbered g' i c := by
  intro hp
  obtain ⟨k, hk, hid⟩ := h hp
  obtain ⟨ext, he⟩ := hg
  refine ⟨k, ?_, hid⟩
  rw [← he, List.getElem?_append_left (List.getElem?_eq_some_iff.mp hk).1]
  exact hk

/-- A handle names the connection and its id. -/
theorem Session.handle_inj {d : Session E} (h : d.handle i = c.handle i) :
    d.connectionId = c.connectionId := congrArg ClientHandle.connectionId h

/-- Ids are handed out in order, and a connection keeps the one it took. -/
theorem numbered_run {config : Config} {ok : ServerState E → ServerAct E → Prop}
    {p : ServerState E} (h : Runs config ok p) :
    Keeps (fun n w => NextId n w.registry) (fun w i c => Numbered w.registry i c) p := by
  refine registry_rule rfl (fun _ _ hJ => hJ) (fun _ _ _ _ _ hp => absurd rfl hp) ?_ ?_ h
  · rintro p i c a r - hI - hc hstep
    have hJ := hI.shared
    have hK := hI.session i c hc
    cases hstep with
    | idle reg phase who =>
      rw [reg]
      refine ⟨hJ, fun hp => ?_⟩
      rw [phase] at hp
      rcases who with hb | ⟨-, hh⟩
      · exact absurd hb hp
      · rw [Session.handle_inj hh]; exact hK hp
    | number act phase phase' reg id =>
      rw [reg]
      refine ⟨?_, fun _ => ⟨p.shared.takers.length, ?_, ?_⟩⟩
      · exact hJ.take i
      · simp [Registry.take, World.registry]
      · rw [id]; exact hJ
    | register act phase phase' reg key handle =>
      rw [reg]
      refine ⟨hJ, fun _ => ?_⟩
      rw [Session.handle_inj handle]
      exact hK (by simp [phase])
    | quit phase phase' encode reg key handle =>
      rw [reg]
      refine ⟨hJ, fun _ => ?_⟩
      rw [Session.handle_inj handle]
      exact hK (by simp [phase])
    | get phase phase' reg key handle =>
      rw [reg]
      refine ⟨hJ, fun _ => ?_⟩
      rw [Session.handle_inj handle]
      exact hK (by simp [phase])
    | remove own phase phase' reg key handle =>
      have hn : Numbered p.shared.registry i r.2 := fun _ => by
        rw [Session.handle_inj handle]
        exact hK (by simp [phase])
      rw [reg]
      cases own <;> exact ⟨hJ, hn⟩
  · rintro p i c a r j d - hI - hne hc hd hstep
    have hK := hI.session j d hd
    cases hstep with
    | idle reg => rw [reg]; exact hK
    | quit phase phase' encode reg => rw [reg]; exact hK
    | get phase phase' reg => rw [reg]; exact hK
    | register act phase phase' reg => rw [reg]; exact hK
    | number act phase phase' reg => rw [reg]; exact hK.of_extension (List.prefix_append _ _)
    | remove own phase phase' reg => rw [reg]; cases own <;> exact hK

/-- Only connections that took an id are ever entered. -/
structure Recorded (n : ℕ) (g : Registry) : Prop where
  takers : ∀ j ∈ g.takers, j < n
  entries : ∀ key h, g.clients.lookup key = some h → h.sender ∈ g.takers
  registrations : ∀ e ∈ g.registrations, e.2.sender ∈ g.takers

/-- The connection may still have an entry. -/
def Phase.holds : Phase → Bool
  | .registered | .matched true | .quit => true
  | _ => false

/-- Every entry that names connection `i` is the one it made, and it made none before it registered. -/
structure Owned (g : Registry) (i : ℕ) (c : Session E) : Prop where
  entry : ∀ key h, g.clients.lookup key = some h → h.sender = i →
    c.phase.holds = true ∧ key = c.key ∧ h = c.handle i
  fresh : c.phase = .before ∨ c.phase = .numbered → ∀ e ∈ g.registrations, e.2.sender ≠ i

/-- A step of the connection that leaves the registry alone. -/
theorem Owned.still {g : Registry} {c' : Session E} (h : Owned g i c)
    (hholds : c.phase.holds = true → c'.phase.holds = true ∧ c'.key = c.key ∧
      c'.handle i = c.handle i)
    (hfresh : c'.phase = .before ∨ c'.phase = .numbered → c.phase = .before ∨ c.phase = .numbered) :
    Owned g i c' := by
  refine ⟨fun key e hl hs => ?_, fun hp => h.fresh (hfresh hp)⟩
  obtain ⟨hp, rfl, rfl⟩ := h.entry key e hl hs
  obtain ⟨hp', hkey, hh⟩ := hholds hp
  exact ⟨hp', hkey.symm, hh.symm⟩

/-- A step of another connection. -/
theorem Owned.other {a : TaskAct} {j : ℕ} {d : Session E} (h : Owned w.registry j d) (hne : j ≠ i)
    (hstep : RegistryStep w i c a r) : Owned r.1.registry j d := by
  cases hstep with
  | idle reg => rw [reg]; exact h
  | quit phase phase' encode reg => rw [reg]; exact h
  | get phase phase' reg => rw [reg]; exact h
  | number act phase phase' reg => rw [reg]; exact ⟨h.entry, h.fresh⟩
  | register act phase phase' reg =>
    rw [reg]
    refine ⟨fun key e hl hs => ?_, fun hp e he => ?_⟩
    · rw [Registry.register, Dict.lookup_insert_if] at hl
      split at hl
      · cases hl; exact absurd hs.symm hne
      · exact h.entry key e hl hs
    · rcases List.mem_append.mp he with he | he
      · exact h.fresh hp e he
      · rw [List.mem_singleton] at he
        subst he; exact hne.symm
  | remove own phase phase' reg =>
    rw [reg]
    cases own with
    | false => exact h
    | true =>
      refine ⟨fun key e hl hs => ?_, h.fresh⟩
      rw [if_pos rfl, Registry.erase, Dict.lookup_erase_if] at hl
      split at hl
      · cases hl
      · exact h.entry key e hl hs

/-- The guard of `unregister_client`. -/
theorem isRegistered_iff (app : AppState E) (clientId tenantId : String) (connectionId : UInt64) :
    app.isRegistered clientId tenantId connectionId = true ↔
      ∃ handle, app.clients.lookup (tenantId, clientId) = some handle ∧
        handle.connectionId = connectionId := by
  unfold AppState.isRegistered
  cases app.clients.lookup (tenantId, clientId) <;> simp

theorem owned_run {config : Config} {ok : ServerState E → ServerAct E → Prop}
    {p : ServerState E} (h : Runs config ok p) :
    Keeps (fun n w => Recorded n w.registry) (fun w i c => Owned w.registry i c) p := by
  refine registry_rule ?_ ?_ ?_ ?_ ?_ h
  · -- init
    exact ⟨by simp [Registry.empty], by simp [Registry.empty], by simp [Registry.empty]⟩
  · -- grow
    rintro n g hJ
    exact ⟨fun j hj => Nat.lt_succ_of_lt (hJ.takers j hj), hJ.entries, hJ.registrations⟩
  · -- arrive
    rintro n g ip query hJ
    refine ⟨fun key e hl hs => ?_, fun _ e he hs => ?_⟩
    · exact absurd (hJ.takers _ (hJ.entries key e hl)) (by omega)
    · exact absurd (hJ.takers _ (hJ.registrations e he)) (by omega)
  · -- own
    rintro p i c a r hr hI - hc hstep
    have hJ := hI.shared
    have hK := hI.session i c hc
    cases hstep with
    | idle reg phase who =>
      rw [reg]
      refine ⟨hJ, hK.still (fun hp => ?_) (by rw [phase]; exact id)⟩
      rcases who with hb | ⟨hkey, hh⟩
      · rw [hb] at hp; cases hp
      · exact ⟨by rw [phase, hp], hkey, hh⟩
    | number act phase phase' reg id =>
      rw [reg]
      have hlt : i < p.threads.length := (List.getElem?_eq_some_iff.mp (session_eq_some.mp hc)).1
      refine ⟨⟨fun j hj => ?_, fun key e hl => ?_, fun e he => ?_⟩, ?_⟩
      · rcases List.mem_append.mp hj with hj | hj
        · exact hJ.takers j hj
        · rw [List.mem_singleton] at hj; subst hj; exact hlt
      · exact List.mem_append_left _ (hJ.entries key e hl)
      · exact List.mem_append_left _ (hJ.registrations e he)
      · refine ⟨fun key e hl hs => ?_, fun _ => hK.fresh (Or.inl phase)⟩
        obtain ⟨hp, -, -⟩ := hK.entry key e hl hs
        rw [phase] at hp; cases hp
    | register act phase phase' reg key handle =>
      have hmem : i ∈ p.shared.registry.takers := by
        obtain ⟨k, hk, -⟩ := (numbered_run hr).session i c hc (by simp [phase])
        exact List.mem_of_getElem? hk
      rw [reg]
      refine ⟨⟨hJ.takers, fun key' e hl => ?_, fun e he => ?_⟩, fun key' e hl hs => ?_, ?_⟩
      · -- entries
        rw [Registry.register, Dict.lookup_insert_if] at hl
        split at hl
        · cases hl; exact hmem
        · exact hJ.entries key' e hl
      · -- registrations
        rcases List.mem_append.mp he with he | he
        · exact hJ.registrations e he
        · rw [List.mem_singleton] at he; subst he; exact hmem
      · -- entry
        rw [Registry.register, Dict.lookup_insert_if] at hl
        split at hl
        · cases hl
          exact ⟨by rw [phase']; rfl, by rw [key]; assumption, handle.symm⟩
        · obtain ⟨hp, -, -⟩ := hK.entry key' e hl hs
          rw [phase] at hp; cases hp
      · -- fresh
        rw [phase']; rintro (hp | hp) <;> cases hp
    | quit phase phase' encode reg key handle =>
      rw [reg]
      refine ⟨hJ, hK.still (fun _ => ⟨by rw [phase']; rfl, key, handle⟩) ?_⟩
      rw [phase']; rintro (hp | hp) <;> cases hp
    | get phase phase' reg key handle =>
      rw [reg]
      refine ⟨hJ, fun key' e hl hs => ?_, ?_⟩
      · obtain ⟨hp, rfl, rfl⟩ := hK.entry key' e hl hs
        have hreg : p.shared.app.isRegistered c.identity.clientId c.identity.tenantId
            c.connectionId = true := (isRegistered_iff _ _ _ _).mpr ⟨_, hl, rfl⟩
        rw [phase', hreg]
        exact ⟨rfl, key.symm, handle.symm⟩
      · rw [phase']; rintro (hp | hp) <;> cases hp
    | remove own phase phase' reg key handle =>
      rw [reg]
      cases own with
      | false =>
        refine ⟨hJ, fun key' e hl hs => ?_, ?_⟩
        · obtain ⟨hp, -, -⟩ := hK.entry key' e hl hs
          rw [phase] at hp; cases hp
        · rw [phase']; rintro (hp | hp) <;> cases hp
      | true =>
        refine ⟨⟨hJ.takers, fun key' e hl => ?_, hJ.registrations⟩, fun key' e hl hs => ?_, ?_⟩
        · rw [if_pos rfl, Registry.erase, Dict.lookup_erase_if] at hl
          split at hl
          · cases hl
          · exact hJ.entries key' e hl
        · rw [if_pos rfl, Registry.erase, Dict.lookup_erase_if] at hl
          split at hl
          · cases hl
          · obtain ⟨-, rfl, -⟩ := hK.entry key' e hl hs
            exact absurd rfl ‹_›
        · rw [phase']; rintro (hp | hp) <;> cases hp
  · -- other
    rintro p i c a r j d - hI - hne hc hd hstep
    exact (hI.session j d hd).other hne hstep

theorem RegistryStep.mem_takers {a : TaskAct} (h : RegistryStep w i c a r) {j : ℕ}
    (hj : j ∈ r.1.registry.takers) : j ∈ w.registry.takers ∨ j = i := by
  cases h with
  | idle reg => rw [reg] at hj; exact Or.inl hj
  | quit phase phase' encode reg => rw [reg] at hj; exact Or.inl hj
  | get phase phase' reg => rw [reg] at hj; exact Or.inl hj
  | register act phase phase' reg => rw [reg] at hj; exact Or.inl hj
  | number act phase phase' reg =>
    rw [reg, Registry.take, List.mem_append, List.mem_singleton] at hj
    exact hj
  | remove own phase phase' reg => rw [reg] at hj; cases own <;> exact Or.inl hj

/-- Only connections take ids. -/
theorem taker_session {config : Config} {ok : ServerState E → ServerAct E → Prop}
    {p : ServerState E} (h : Runs config ok p) {j : ℕ} (hj : j ∈ p.shared.takers) :
    ∃ c, p.session j = some c := by
  have hall : Holds (fun n w => ∀ j ∈ w.registry.takers, j < n)
      (fun w i l => i ∈ w.registry.takers → ∃ c, l = Task.ws c) p := by
    refine Prog.rely_guarantee ?_ ?_ ?_ ?_ ?_ h
    · -- boot
      exact ⟨by simp [boot, World.init, World.registry], fun i l hl => by simp [boot] at hl⟩
    · -- start
      rintro p request - hI
      exact ⟨fun j hj => Nat.lt_succ_of_lt (hI.shared j hj),
        fun hn => absurd (hI.shared _ hn) (by omega)⟩
    · -- own
      rintro p i l a w' l' - hI - hl hs
      have hlt : i < p.threads.length := (List.getElem?_eq_some_iff.mp hl).1
      cases l with
      | http d =>
        obtain ⟨d', b, rfl, rfl, hstep⟩ := step_http hs
        have hreg : w'.registry = p.shared.registry :=
          congrArg Books.registry (Api.step_framed hstep).books
        rw [hreg]
        refine ⟨hI.shared, fun hi => ?_⟩
        obtain ⟨c, hc⟩ := hI.each i _ hl hi
        cases hc
      | ws c =>
        obtain ⟨c', rfl, hstep⟩ := step_ws hs
        refine ⟨fun j hj => ?_, fun _ => ⟨c', rfl⟩⟩
        rcases (registry_step hstep).mem_takers hj with hj | rfl
        · exact hI.shared j hj
        · exact hlt
    · -- other
      rintro p i l a w' l' j m - hI - hne hl hm hs hj
      refine hI.each j m hm ?_
      cases l with
      | http d =>
        obtain ⟨d', b, rfl, rfl, hstep⟩ := step_http hs
        have hreg : w'.registry = p.shared.registry :=
          congrArg Books.registry (Api.step_framed hstep).books
        rw [← hreg]; exact hj
      | ws c =>
        obtain ⟨c', rfl, hstep⟩ := step_ws hs
        rcases (registry_step hstep).mem_takers hj with hj | rfl
        · exact hj
        · exact absurd rfl hne
    · -- env
      rintro p e w' hI he
      cases he
      exact ⟨hI.shared, hI.each⟩
  have hlt : j < p.threads.length := hall.shared j hj
  obtain ⟨c, hc⟩ := hall.each j _ (List.getElem?_eq_getElem hlt) hj
  exact ⟨c, session_eq_some.mpr (by rw [List.getElem?_eq_getElem hlt, hc])⟩

/-- Two connections with one id are one connection, as long as the ids have not come round. -/
theorem session_of_id {config : Config} {ok : ServerState E → ServerAct E → Prop}
    {p : ServerState E} (h : Runs config ok p) (hlt : p.shared.takers.length < 2 ^ 64)
    {i j : ℕ} {c d : Session E} (hc : p.session i = some c) (hd : p.session j = some d)
    (hpc : c.phase ≠ .before) (hpd : d.phase ≠ .before) (hid : c.connectionId = d.connectionId) :
    i = j := by
  obtain ⟨k, hk, hck⟩ := (numbered_run h).session i c hc hpc
  obtain ⟨m, hm, hdm⟩ := (numbered_run h).session j d hd hpd
  have hkl : k < p.shared.takers.length := (List.getElem?_eq_some_iff.mp hk).1
  have hml : m < p.shared.takers.length := (List.getElem?_eq_some_iff.mp hm).1
  have hnat : (UInt64.ofNat (k + 1)).toNat = (UInt64.ofNat (m + 1)).toNat := by
    rw [← hck, hid, hdm]
  rw [UInt64.toNat_ofNat_of_lt' (by rw [UInt64.size]; omega),
    UInt64.toNat_ofNat_of_lt' (by rw [UInt64.size]; omega)] at hnat
  have hkm : k = m := by omega
  subst hkm
  rw [hk] at hm
  exact Option.some.inj hm

/-- The connection has registered and `unregister_client` has not returned. -/
def Phase.isOnline : Phase → Bool
  | .registered | .matched _ => true
  | _ => false

/-- An entry names a connection that may still have it. -/
theorem entry_session {config : Config} {ok : ServerState E → ServerAct E → Prop}
    {p : ServerState E} (h : Runs config ok p) {key : String × String} {handle : ClientHandle}
    (hl : p.shared.app.clients.lookup key = some handle) :
    ∃ c, p.session handle.sender = some c ∧ c.phase.holds = true ∧ key = c.key ∧
      handle = c.handle handle.sender := by
  obtain ⟨c, hc⟩ := taker_session h ((owned_run h).shared.entries key handle hl)
  exact ⟨c, hc, ((owned_run h).session _ c hc).entry key handle hl rfl⟩

/-- A direct message goes where an entry says. -/
theorem directTarget_entry {l : Task E} {a : TaskAct} {j : ℕ} (h : l.directTarget w a = some j) :
    ∃ key handle, w.app.clients.lookup key = some handle ∧ handle.sender = j := by
  have hto : ∀ clientId tenantId, w.directTo clientId tenantId = some j →
      ∃ key handle, w.app.clients.lookup key = some handle ∧ handle.sender = j := by
    rintro clientId tenantId ht
    obtain ⟨handle, hl, hs⟩ := Option.map_eq_some_iff.mp ht
    exact ⟨_, handle, hl, hs⟩
  unfold Task.directTarget at h
  split at h
  · unfold Reader.directTarget at h
    split at h
    · split at h
      · exact hto _ _ h
      · cases h
    · cases h
  · unfold Api.directTarget at h
    split at h
    · split at h
      · exact hto _ _ h
      · cases h
    · cases h
  · cases h

/-- A queue has had nothing in it before its request arrives. -/
theorem absent_run {config : Config} {ok : ServerState E → ServerAct E → Prop}
    {p : ServerState E} (h : Runs config ok p) {k : ℕ} (hk : p.threads.length ≤ k) :
    p.shared.queues k = Queue.absent := by
  refine (Prog.rely_guarantee (J := fun n w => ∀ k, n ≤ k → w.queues k = Queue.absent)
    (K := fun _ _ _ => True) ?_ ?_ ?_ ?_ ?_ h).shared k hk
  · exact ⟨fun _ _ => rfl, fun _ _ _ => trivial⟩
  · rintro p request - hI
    exact ⟨fun k hk => hI.shared k (Nat.le_of_succ_le hk), trivial⟩
  · rintro p i l a w' l' hr hI - hl (hs : Task.step p.shared i l a = some (w', l'))
    refine ⟨fun k hk => ?_, trivial⟩
    have hlt : i < p.threads.length := (List.getElem?_eq_some_iff.mp hl).1
    rcases queue_other (by omega : k ≠ i) hs with hq | ⟨x, ⟨ht, -⟩, -⟩
    · rw [hq]; exact hI.shared k hk
    · obtain ⟨key, handle, hlook, hsender⟩ := directTarget_entry ht
      obtain ⟨c, hc, -⟩ := entry_session hr hlook
      have hlt' := (List.getElem?_eq_some_iff.mp (session_eq_some.mp hc)).1
      omega
  · exact fun _ _ _ _ _ _ _ _ _ _ _ _ _ _ _ => trivial
  · rintro p e w' hI he
    cases he
    exact ⟨hI.shared, fun _ _ _ => trivial⟩

/-- No connection quits early when every `Ready` can be encoded. -/
theorem not_quit {config : Config} {ok : ServerState E → ServerAct E → Prop} {p : ServerState E}
    (hready : ∀ topic clientId,
      (encodeServerEvent (E := E) (.ready topic clientId)).isSome = true)
    (h : Runs config ok p) {i : ℕ} {c : Session E} (hc : p.session i = some c) :
    c.phase ≠ .quit := by
  refine (registry_rule (J := fun _ _ => True) (K := fun _ _ c => c.phase ≠ .quit) trivial
    (fun _ _ _ => trivial) (fun _ _ _ _ _ => by simp [Session.phase, Session.arrive, Stage.phase])
    ?_ ?_ h).session i c hc
  · rintro p i c a r - hI - hc hstep
    refine ⟨trivial, ?_⟩
    cases hstep with
    | idle reg phase => rw [phase]; exact hI.session i c hc
    | number act phase phase' => simp [phase']
    | register act phase phase' => simp [phase']
    | get phase phase' => simp [phase']
    | remove own phase phase' => simp [phase']
    | quit phase phase' encode =>
      have hsome := hready (extractTopic c.topicKey) c.identity.clientId
      rw [encode] at hsome; cases hsome
  · rintro p i c a r j d - hI - - - hd -
    exact hI.session j d hd

end WsServer
