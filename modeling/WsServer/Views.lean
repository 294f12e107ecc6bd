import WsServer.Server

/-! Four views of the world: the admission pools, the registry, the wiring (topics and their channels)
    and the client queues. Every operation on the world gets one lemma a view, so that the step
    functions need not be taken apart again for each invariant. -/

namespace WsServer

open Lib

variable {E : Ext}

/-- The constants, and what only handshakes write: the pools and the counters of refusals
    (`rejected_connections`, `ip_rejected`, `auth_rejected`, `tenant_rejected`). -/
structure Pools (E : Ext) where
  config : Config
  auth : Option (AuthVerifier E)
  connectionLimit : Semaphore
  ipLimiter : Option (IpLimiter E.F)
  tenantLimits : Option (Dict String Semaphore)
  rejections : ℕ × ℕ × ℕ × ℕ

/-- What only set-ups and supervisors write. -/
structure Registry where
  clients : Dict (String × String) ClientHandle
  nextConnectionId : UInt64
  registrations : List ((String × String) × ClientHandle)
  takers : List ℕ

namespace Registry

def empty : Registry := { clients := ∅, nextConnectionId := 1, registrations := [], takers := [] }

def take (g : Registry) (i : ℕ) : Registry :=
  { g with nextConnectionId := g.nextConnectionId + 1, takers := g.takers ++ [i] }

def register (g : Registry) (key : String × String) (handle : ClientHandle) : Registry :=
  { g with
    clients := g.clients.insert key handle
    registrations := g.registrations ++ [(key, handle)] }

def erase (g : Registry) (key : String × String) : Registry :=
  { g with clients := g.clients.erase key }

end Registry

structure Books (E : Ext) where
  pools : Pools E
  registry : Registry

/-- The topic table, its channels, and the history of publishes. -/
structure Wiring (E : Ext) where
  topics : Dict String ℕ
  channels : List (Channel E)
  published : List (Publish E)

def Metrics.rejections (m : Metrics) : ℕ × ℕ × ℕ × ℕ :=
  (m.rejectedConnections, m.ipRejected, m.authRejected, m.tenantRejected)

namespace World

def pools (w : World E) : Pools E :=
  { config := w.app.config, auth := w.app.auth, connectionLimit := w.app.connectionLimit,
    ipLimiter := w.app.ipLimiter, tenantLimits := w.app.tenantLimits,
    rejections := w.app.metrics.rejections }

def registry (w : World E) : Registry :=
  { clients := w.app.clients, nextConnectionId := w.app.nextConnectionId,
    registrations := w.registrations, takers := w.takers }

def books (w : World E) : Books E := { pools := w.pools, registry := w.registry }

def wiring (w : World E) : Wiring E :=
  { topics := w.app.topics, channels := w.channels, published := w.published }

/-! ### Counters -/

/-- A counter that no admission step writes. -/
def Neutral (f : Metrics → Metrics) : Prop := ∀ m, (f m).rejections = m.rejections

theorem books_withMetrics (w : World E) {f : Metrics → Metrics} (hf : Neutral f) :
    (w.withMetrics f).books = w.books := by
  simp [books, pools, registry, withMetrics, hf w.app.metrics]

theorem neutral_iterate {f : Metrics → Metrics} (hf : Neutral f) (n : ℕ) : Neutral f^[n] := by
  intro m
  induction n with
  | zero => rfl
  | succ n ih => rw [Function.iterate_succ_apply', hf, ih]

@[simp] theorem wiring_withMetrics (w : World E) (f : Metrics → Metrics) :
    (w.withMetrics f).wiring = w.wiring := rfl

@[simp] theorem queues_withMetrics (w : World E) (f : Metrics → Metrics) :
    (w.withMetrics f).queues = w.queues := rfl

@[simp] theorem now_withMetrics (w : World E) (f : Metrics → Metrics) :
    (w.withMetrics f).now = w.now := rfl

/-! ### Queues -/

@[simp] theorem books_setQueue (w : World E) (i : ℕ) (q : Queue (Item E)) :
    (w.setQueue i q).books = w.books := rfl

@[simp] theorem wiring_setQueue (w : World E) (i : ℕ) (q : Queue (Item E)) :
    (w.setQueue i q).wiring = w.wiring := rfl

@[simp] theorem queues_setQueue (w : World E) (i : ℕ) (q : Queue (Item E)) :
    (w.setQueue i q).queues = Function.update w.queues i q := rfl

@[simp] theorem books_closeQueue (w : World E) (i : ℕ) : (w.closeQueue i).books = w.books := rfl

@[simp] theorem wiring_closeQueue (w : World E) (i : ℕ) : (w.closeQueue i).wiring = w.wiring := rfl

@[simp] theorem queues_closeQueue (w : World E) (i : ℕ) :
    (w.closeQueue i).queues = Function.update w.queues i (w.queues i).close := rfl

/-- A send succeeds and appends, or fails and changes nothing. -/
theorem trySend_cases (w : World E) (i : ℕ) (x : Item E) :
    (∃ q, (w.queues i).trySend x = .ok q ∧ w.trySend i x = (true, w.setQueue i q)) ∨
      ((∀ q, (w.queues i).trySend x ≠ .ok q) ∧ w.trySend i x = (false, w)) := by
  unfold trySend
  cases h : (w.queues i).trySend x with
  | ok q => exact Or.inl ⟨q, rfl, rfl⟩
  | error e => exact Or.inr ⟨by simp, rfl⟩

@[simp] theorem books_trySend (w : World E) (i : ℕ) (x : Item E) :
    (w.trySend i x).2.books = w.books := by
  rcases trySend_cases w i x with ⟨q, -, h⟩ | ⟨-, h⟩ <;> simp [h]

@[simp] theorem wiring_trySend (w : World E) (i : ℕ) (x : Item E) :
    (w.trySend i x).2.wiring = w.wiring := by
  rcases trySend_cases w i x with ⟨q, -, h⟩ | ⟨-, h⟩ <;> simp [h]

theorem queues_trySend_ne (w : World E) {i j : ℕ} (x : Item E) (hne : j ≠ i) :
    (w.trySend i x).2.queues j = w.queues j := by
  rcases trySend_cases w i x with ⟨q, -, h⟩ | ⟨-, h⟩ <;> simp [h, hne]

@[simp] theorem books_sendEncoded (w : World E) (i : ℕ) (encoded : E.Bytes) (source : Source) :
    (w.sendEncoded i encoded source).2.books = w.books := by
  simp only [sendEncoded]
  split
  · exact books_trySend w i _
  · exact (books_withMetrics _ fun _ => rfl).trans (books_trySend w i _)

@[simp] theorem wiring_sendEncoded (w : World E) (i : ℕ) (encoded : E.Bytes) (source : Source) :
    (w.sendEncoded i encoded source).2.wiring = w.wiring := by
  simp only [sendEncoded]
  split <;> simp

@[simp] theorem queues_sendEncoded (w : World E) (i : ℕ) (encoded : E.Bytes) (source : Source) :
    (w.sendEncoded i encoded source).2.queues =
      (w.trySend i ⟨.binary encoded, source⟩).2.queues := by
  simp only [sendEncoded]
  split <;> simp

@[simp] theorem sendEncoded_fst (w : World E) (i : ℕ) (encoded : E.Bytes) (source : Source) :
    (w.sendEncoded i encoded source).1 = (w.trySend i ⟨.binary encoded, source⟩).1 := by
  simp only [sendEncoded]
  split <;> simp_all

@[simp] theorem books_sendToClient (w : World E) (clientId tenantId : String) (encoded : E.Bytes)
    (sender : AuthIdentity) : (w.sendToClient clientId tenantId encoded sender).2.books = w.books := by
  unfold sendToClient
  split <;> simp

@[simp] theorem wiring_sendToClient (w : World E) (clientId tenantId : String) (encoded : E.Bytes)
    (sender : AuthIdentity) :
    (w.sendToClient clientId tenantId encoded sender).2.wiring = w.wiring := by
  unfold sendToClient
  split <;> simp

/-- Queue `j` is as before, or got one item at its end, of which `P` holds. -/
def Grew (w w' : World E) (j : ℕ) (P : Item E → Prop) : Prop :=
  w'.queues j = w.queues j ∨ ∃ x, P x ∧ (w.queues j).trySend x = .ok (w'.queues j)

theorem grew_trySend (w : World E) (i : ℕ) (x : Item E) (j : ℕ) :
    Grew w (w.trySend i x).2 j fun y => j = i ∧ y = x := by
  by_cases hj : j = i
  · subst hj
    rcases trySend_cases w j x with ⟨q, hq, h⟩ | ⟨-, h⟩
    · exact Or.inr ⟨x, ⟨rfl, rfl⟩, by rw [h, hq, queues_setQueue, Function.update_self]⟩
    · exact Or.inl (by rw [h])
  · exact Or.inl (queues_trySend_ne w x hj)

theorem Grew.mono {w w' : World E} {j : ℕ} {P Q : Item E → Prop} (h : Grew w w' j P)
    (hpq : ∀ x, P x → Q x) : Grew w w' j Q := by
  rcases h with h | ⟨x, hp, h⟩
  · exact Or.inl h
  · exact Or.inr ⟨x, hpq x hp, h⟩

theorem Grew.congr {w v w' : World E} {j : ℕ} {P : Item E → Prop} (h : Grew w v j P)
    (he : w'.queues = v.queues) : Grew w w' j P := by
  simpa only [Grew, he] using h

/-- A queue that grew has its old history in front. -/
theorem Grew.placed {w w' : World E} {j : ℕ} {P : Item E → Prop} (h : Grew w w' j P) :
    (w.queues j).placed <+: (w'.queues j).placed := by
  rcases h with h | ⟨x, -, h⟩
  · rw [h]
  · rw [(Queue.trySend_ok h).2.2]; exact List.prefix_append _ _

/-- The queue that a message to a client goes to. -/
def directTo (w : World E) (clientId tenantId : String) : Option ℕ :=
  (w.app.clients.lookup (tenantId, clientId)).map (·.sender)

theorem grew_sendToClient (w : World E) (clientId tenantId : String) (encoded : E.Bytes)
    (sender : AuthIdentity) (j : ℕ) :
    Grew w (w.sendToClient clientId tenantId encoded sender).2 j fun x =>
      w.directTo clientId tenantId = some j ∧ x = ⟨.binary encoded, .direct sender⟩ := by
  unfold sendToClient directTo
  cases w.app.clients.lookup (tenantId, clientId) with
  | none => exact Or.inl rfl
  | some handle =>
    refine (grew_trySend w handle.sender _ j).mono ?_
    rintro x ⟨rfl, rfl⟩
    exact ⟨rfl, rfl⟩

/-! ### Channels -/

@[simp] theorem books_onChannel (w : World E) (ch : ℕ) (f : Broadcast (Sent E) → Broadcast (Sent E)) :
    (w.onChannel ch f).books = w.books := rfl

@[simp] theorem queues_onChannel (w : World E) (ch : ℕ)
    (f : Broadcast (Sent E) → Broadcast (Sent E)) : (w.onChannel ch f).queues = w.queues := rfl

@[simp] theorem books_dropRx (w : World E) (i ch : ℕ) : (w.dropRx i ch).books = w.books := rfl

@[simp] theorem queues_dropRx (w : World E) (i ch : ℕ) : (w.dropRx i ch).queues = w.queues := rfl

theorem books_topicSender {w : World E} {key : String} {r : ℕ × World E}
    (h : w.topicSender key = some r) : r.2.books = w.books := by
  simp only [topicSender] at h
  split at h
  · cases h; rfl
  · split at h
    · cases h
    · cases h; rfl

theorem queues_topicSender {w : World E} {key : String} {r : ℕ × World E}
    (h : w.topicSender key = some r) : r.2.queues = w.queues := by
  simp only [topicSender] at h
  split at h
  · cases h; rfl
  · split at h
    · cases h
    · cases h; rfl

@[simp] theorem books_publish (w : World E) (ch : ℕ) (p : Publish E) :
    (w.publish ch p).2.books = w.books := by
  simp only [publish]
  split
  · split <;> rfl
  · rfl

@[simp] theorem queues_publish (w : World E) (ch : ℕ) (p : Publish E) :
    (w.publish ch p).2.queues = w.queues := by
  simp only [publish]
  split
  · split <;> rfl
  · rfl

end World

end WsServer
