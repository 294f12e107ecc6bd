import Mathlib.Algebra.Group.Nat.Defs
import Mathlib.Data.Int.Notation

/-! The configuration (`config.rs`) and the counters (`metrics.rs`). Durations and instants are in
    nanoseconds. The counters are `AtomicU64` in the source; they only ever grow by one an event, so
    they are read as unbounded, except that the gauge wraps when it is decremented at zero. What is said
    of a counter is so of the source's until it has counted `2^64` events. -/

namespace WsServer

/-- The fields of `Config` that the modelled functions read. -/
structure Config where
  maxConnections : ℕ
  clientQueueCapacity : ℕ
  topicChannelCapacity : ℕ
  maxTextBytes : ℕ
  maxMessagesPerSecond : UInt32
  messageBurst : UInt32
  idleTimeout : ℕ
  heartbeatInterval : ℕ
  jwtSecret : Option String
  jwtPublicKey : Option String
  jwtIssuer : Option String
  ipMaxConcurrent : Option ℕ
  ipConnectionRate : Option UInt32
  ipRateBurst : Option UInt32
  tenantMaxConnections : Option ℕ
  tenantMaxMessagesPerSecond : Option UInt32
  tenantMessageBurst : Option UInt32

/-- `Semaphore::MAX_PERMITS`, which is also the largest capacity of an mpsc channel. -/
def maxPermits : ℕ := 2 ^ 61 - 1

/-- `mpsc::channel` panics on this capacity. -/
def mpscPanics (capacity : ℕ) : Bool := capacity = 0 || maxPermits < capacity

/-- `broadcast::channel` panics on this capacity: on one of its two asserts, or because the slots, a power
    of two of them with `slotSize` bytes each, would take more than `isize::MAX` bytes. A buffer below that
    which the machine has no memory for ends the process, not the task, and is no run of the server. -/
def broadcastPanics (slotSize capacity : ℕ) : Bool :=
  capacity = 0 || 2 ^ 63 - 1 < capacity || 2 ^ 63 - 1 < capacity.nextPowerOfTwo * slotSize

structure Metrics where
  activeConnections : ℕ
  acceptedConnections : ℕ
  rejectedConnections : ℕ
  messagesIn : ℕ
  messagesOut : ℕ
  droppedMessages : ℕ
  protocolErrors : ℕ
  authRejected : ℕ
  ipRejected : ℕ
  tenantRejected : ℕ
  tenantRateRejected : ℕ
  deriving DecidableEq

namespace Metrics

/-- `Metrics::default`. -/
def zero : Metrics := ⟨0, 0, 0, 0, 0, 0, 0, 0, 0, 0, 0⟩

def connectionAccepted (m : Metrics) : Metrics :=
  { m with
    acceptedConnections := m.acceptedConnections + 1
    activeConnections := m.activeConnections + 1 }

def connectionClosed (m : Metrics) : Metrics :=
  { m with
    activeConnections :=
      if m.activeConnections = 0 then 2 ^ 64 - 1 else m.activeConnections - 1 }

def connectionRejected (m : Metrics) : Metrics :=
  { m with rejectedConnections := m.rejectedConnections + 1 }

def messageIn (m : Metrics) : Metrics := { m with messagesIn := m.messagesIn + 1 }

def messageOut (m : Metrics) : Metrics := { m with messagesOut := m.messagesOut + 1 }

def messageDropped (m : Metrics) : Metrics :=
  { m with droppedMessages := m.droppedMessages + 1 }

def protocolError (m : Metrics) : Metrics := { m with protocolErrors := m.protocolErrors + 1 }

/-- `auth_rejected`; the source gives field and method one name. -/
def addAuthRejected (m : Metrics) : Metrics := { m with authRejected := m.authRejected + 1 }

def addIpRejected (m : Metrics) : Metrics := { m with ipRejected := m.ipRejected + 1 }

def addTenantRejected (m : Metrics) : Metrics := { m with tenantRejected := m.tenantRejected + 1 }

def addTenantRateRejected (m : Metrics) : Metrics :=
  { m with tenantRateRejected := m.tenantRateRejected + 1 }

end Metrics

end WsServer
