import Mathlib.Data.List.AList

/-! Objects that concurrent tasks share: a keyed table, a bounded queue, a counting semaphore and a
    broadcast channel. Each operation is one atomic step. A queue remembers everything it ever
    accepted (`placed`), a broadcast channel everything ever sent (`log`); a receiver of the latter
    is a position in the log, and `pending` is what it has not passed yet. -/

namespace Lib

/-! ### Tables -/

/-- A table with one value a key. -/
abbrev Dict (κ ν : Type) := AList fun _ : κ => ν

namespace Dict

variable {κ ν : Type} [DecidableEq κ]

@[simp] theorem lookup_insert_if (d : Dict κ ν) (k k' : κ) (v : ν) :
    (d.insert k v).lookup k' = if k' = k then some v else d.lookup k' := by
  split
  · subst k'; exact AList.lookup_insert d
  · exact AList.lookup_insert_ne ‹_›

@[simp] theorem lookup_erase_if (d : Dict κ ν) (k k' : κ) :
    (d.erase k).lookup k' = if k' = k then none else d.lookup k' := by
  split
  · subst k'; exact AList.lookup_erase k d
  · exact AList.lookup_erase_ne ‹_›

end Dict

/-! ### Bounded queues -/

/-- A bounded single-consumer queue; `isOpen` until the consumer is gone. -/
structure Queue (α : Type) where
  cap : ℕ
  buf : List α
  isOpen : Bool
  placed : List α

inductive TrySendError where | full | closed
  deriving DecidableEq

namespace Queue

variable {α : Type}

/-- The queue of a consumer that does not exist yet. -/
def absent : Queue α := { cap := 0, buf := [], isOpen := false, placed := [] }

def new (cap : ℕ) : Queue α := { cap := cap, buf := [], isOpen := true, placed := [] }

/-- Append without waiting. -/
def trySend (q : Queue α) (x : α) : Except TrySendError (Queue α) :=
  if q.isOpen = false then .error .closed
  else if q.cap ≤ q.buf.length then .error .full
  else .ok { q with buf := q.buf ++ [x], placed := q.placed ++ [x] }

/-- Take the oldest element. -/
def recv (q : Queue α) : Option (α × Queue α) :=
  match q.buf with
  | [] => none
  | x :: rest => some (x, { q with buf := rest })

/-- The consumer is gone and what it had not taken is lost. -/
def close (q : Queue α) : Queue α := { q with buf := [], isOpen := false }

@[simp] theorem close_placed (q : Queue α) : q.close.placed = q.placed := rfl

/-- A send that succeeds appends and changes nothing else. -/
theorem trySend_ok {q q' : Queue α} {x : α} (h : q.trySend x = .ok q') :
    q.isOpen = true ∧ q.buf.length < q.cap ∧
      q' = { q with buf := q.buf ++ [x], placed := q.placed ++ [x] } := by
  unfold trySend at h
  split at h
  · cases h
  · split at h
    · cases h
    · exact ⟨by simpa using ‹¬ q.isOpen = false›, by omega, (Except.ok.inj h).symm⟩

/-- A send succeeds exactly when the consumer is there and a place is free. -/
theorem trySend_isOk (q : Queue α) (x : α) :
    (∃ q', q.trySend x = .ok q') ↔ q.isOpen = true ∧ q.buf.length < q.cap := by
  constructor
  · rintro ⟨q', h⟩
    exact ⟨(trySend_ok h).1, (trySend_ok h).2.1⟩
  · rintro ⟨ho, hc⟩
    exact ⟨_, by rw [trySend, if_neg (by simp [ho]), if_neg (by omega)]⟩

theorem recv_some {q q' : Queue α} {x : α} (h : q.recv = some (x, q')) :
    q.buf = x :: q'.buf ∧ q' = { q with buf := q'.buf } := by
  unfold recv at h
  split at h
  · cases h
  · rename_i y rest hb
    simp only [Option.some.injEq, Prod.mk.injEq] at h
    obtain ⟨rfl, rfl⟩ := h
    exact ⟨hb, rfl⟩

end Queue

/-! ### Semaphores -/

/-- A counting semaphore: the permits still free. -/
structure Semaphore where
  free : ℕ
  deriving DecidableEq

namespace Semaphore

def tryAcquire (s : Semaphore) : Option Semaphore :=
  if s.free = 0 then none else some { free := s.free - 1 }

def release (s : Semaphore) : Semaphore := { free := s.free + 1 }

theorem tryAcquire_some {s s' : Semaphore} (h : s.tryAcquire = some s') :
    s'.free + 1 = s.free := by
  unfold tryAcquire at h
  split at h
  · cases h
  · rw [Option.some.injEq] at h; subst h; exact Nat.sub_add_cancel (by omega)

theorem tryAcquire_none {s : Semaphore} : s.tryAcquire = none ↔ s.free = 0 := by
  simp [tryAcquire]

end Semaphore

/-! ### Broadcast channels -/

/-- A channel that hands every value to every receiver and keeps the last `cap` of them. A receiver
    stands at a position of the log, never past its end. -/
structure Broadcast (α : Type) where
  cap : ℕ
  log : List α
  rxs : Dict ℕ ℕ
  bounded : ∀ r pos, rxs.lookup r = some pos → pos ≤ log.length

/-- What a receiver gets: the next value, or how many values it was too late for. -/
inductive Recv (α : Type) where
  | ok (x : α)
  | lagged (n : ℕ)

namespace Broadcast

variable {α : Type}

def new (cap : ℕ) : Broadcast α :=
  { cap := cap, log := [], rxs := ∅, bounded := by simp }

/-- How many receivers there are. -/
def receivers (b : Broadcast α) : ℕ := b.rxs.keys.length

/-- A new receiver starts behind everything sent so far. -/
def subscribe (b : Broadcast α) (r : ℕ) : Broadcast α :=
  { b with
    rxs := b.rxs.insert r b.log.length
    bounded := by
      intro r' pos h
      rw [Dict.lookup_insert_if] at h
      split at h
      · rw [Option.some.injEq] at h; exact Nat.le_of_eq h.symm
      · exact b.bounded r' pos h }

/-- The receiver is gone. -/
def dropRx (b : Broadcast α) (r : ℕ) : Broadcast α :=
  { b with
    rxs := b.rxs.erase r
    bounded := by
      intro r' pos h
      rw [Dict.lookup_erase_if] at h
      split at h
      · cases h
      · exact b.bounded r' pos h }

/-- Send to all receivers; without a receiver the value is not kept and the send fails. -/
def send (b : Broadcast α) (x : α) : Option (ℕ × Broadcast α) :=
  if b.receivers = 0 then none
  else some (b.receivers,
    { b with
      log := b.log ++ [x]
      bounded := fun r pos h => by
        rw [List.length_append]; exact Nat.le_add_right_of_le (b.bounded r pos h) })

/-- Move receiver `r` to a position inside the log. -/
def moveTo (b : Broadcast α) (r pos : ℕ) (h : pos ≤ b.log.length) : Broadcast α :=
  { b with
    rxs := b.rxs.insert r pos
    bounded := by
      intro r' pos' hl
      rw [Dict.lookup_insert_if] at hl
      split at hl
      · rw [Option.some.injEq] at hl; omega
      · exact b.bounded r' pos' hl }

/-- The oldest position still kept. -/
def oldest (b : Broadcast α) : ℕ := b.log.length - b.cap

theorem oldest_le (b : Broadcast α) : b.oldest ≤ b.log.length := Nat.sub_le _ _

/-- Receive: a receiver whose position is no longer kept skips to the oldest one and is told how many
    values it missed; `none` while there is nothing new. -/
def recv (b : Broadcast α) (r : ℕ) : Option (Recv α × Broadcast α) :=
  match b.rxs.lookup r with
  | none => none
  | some pos =>
    if pos < b.oldest then
      some (.lagged (b.oldest - pos), b.moveTo r b.oldest b.oldest_le)
    else
      if h : pos < b.log.length then some (.ok b.log[pos], b.moveTo r (pos + 1) h) else none

/-- What receiver `r` has not passed yet. -/
def pending (b : Broadcast α) (r : ℕ) : Option (List α) :=
  (b.rxs.lookup r).map fun pos => b.log.drop pos

theorem pending_subscribe (b : Broadcast α) (r r' : ℕ) :
    (b.subscribe r).pending r' = if r' = r then some [] else b.pending r' := by
  simp only [pending, subscribe, Dict.lookup_insert_if]
  split <;> simp

theorem pending_dropRx (b : Broadcast α) (r r' : ℕ) :
    (b.dropRx r).pending r' = if r' = r then none else b.pending r' := by
  simp only [pending, dropRx, Dict.lookup_erase_if]
  split <;> simp

/-- A channel with a receiver counts at least one. -/
theorem receivers_pos {b : Broadcast α} {r : ℕ} {l : List α} (h : b.pending r = some l) :
    b.receivers ≠ 0 := by
  intro h0
  have hnil : b.rxs.keys = [] := List.length_eq_zero_iff.mp h0
  have hmem : r ∉ b.rxs := by simp [AList.mem_keys, hnil]
  rw [pending, AList.lookup_eq_none.mpr hmem] at h
  cases h

/-- A send is pending for every receiver there is. -/
theorem pending_send {b b' : Broadcast α} {x : α} {n : ℕ} (h : b.send x = some (n, b')) (r : ℕ) :
    b'.pending r = (b.pending r).map (· ++ [x]) := by
  unfold send at h
  split at h
  · cases h
  · simp only [Option.some.injEq, Prod.mk.injEq] at h
    obtain ⟨-, rfl⟩ := h
    simp only [pending, Option.map_map]
    cases hl : b.rxs.lookup r with
    | none => rfl
    | some pos => simp [List.drop_append_of_le_length (b.bounded r pos hl)]

theorem pending_moveTo (b : Broadcast α) (r pos : ℕ) (h : pos ≤ b.log.length) (r' : ℕ) :
    (b.moveTo r pos h).pending r' = if r' = r then some (b.log.drop pos) else b.pending r' := by
  simp only [pending, moveTo, Dict.lookup_insert_if]
  split <;> simp

/-- A value received is the first pending one. -/
theorem recv_ok {b b' : Broadcast α} {r : ℕ} {x : α} (h : b.recv r = some (.ok x, b')) :
    ∃ rest, b.pending r = some (x :: rest) ∧ b'.pending r = some rest := by
  unfold recv at h
  split at h
  · cases h
  · rename_i pos hpos
    split at h
    · cases h
    · split at h
      · rename_i hlt
        simp only [Option.some.injEq, Prod.mk.injEq, Recv.ok.injEq] at h
        obtain ⟨rfl, rfl⟩ := h
        refine ⟨b.log.drop (pos + 1), ?_, ?_⟩
        · rw [pending, hpos, Option.map_some, List.drop_eq_getElem_cons hlt]
        · rw [pending_moveTo, if_pos rfl]
      · cases h

/-- `lagged n` skips exactly the first `n` pending values, and at least one. -/
theorem recv_lagged {b b' : Broadcast α} {r n : ℕ} (h : b.recv r = some (.lagged n, b')) :
    ∃ l, b.pending r = some l ∧ 0 < n ∧ n ≤ l.length ∧ b'.pending r = some (l.drop n) := by
  unfold recv at h
  split at h
  · cases h
  · rename_i pos hpos
    split at h
    · rename_i hlt
      simp only [Option.some.injEq, Prod.mk.injEq, Recv.lagged.injEq] at h
      obtain ⟨rfl, rfl⟩ := h
      have hle := b.oldest_le
      refine ⟨b.log.drop pos, by rw [pending, hpos, Option.map_some], by omega, ?_, ?_⟩
      · rw [List.length_drop]; omega
      · rw [pending_moveTo, if_pos rfl, List.drop_drop]
        congr 2; omega
    · split at h <;> cases h

/-- Receiving moves no other receiver. -/
theorem recv_other {b b' : Broadcast α} {r r' : ℕ} {o : Recv α} (h : b.recv r = some (o, b'))
    (hne : r' ≠ r) : b'.pending r' = b.pending r' := by
  unfold recv at h
  split at h
  · cases h
  · split at h
    · simp only [Option.some.injEq, Prod.mk.injEq] at h
      obtain ⟨-, rfl⟩ := h
      rw [pending_moveTo, if_neg hne]
    · split at h
      · simp only [Option.some.injEq, Prod.mk.injEq] at h
        obtain ⟨-, rfl⟩ := h
        rw [pending_moveTo, if_neg hne]
      · cases h

end Broadcast

end Lib
