import Mathlib.Algebra.GroupWithZero.Nat
import WsServer.Lib.Simulation
import WsServer.Lib.Sync

/-! A hub: what a publish-subscribe server is for. Each member has a mailbox for one key; a publish puts
    the message into the mailboxes of its key, and a member takes the messages out in order. One that is
    more than `cap` messages behind is told how many it missed instead, and only then. There are no
    channels, no tasks and no queues in between; members join, take and leave one at a time. -/

namespace Lib

variable {ι κ : Type*} {μ ν : Type} [DecidableEq ι] [DecidableEq κ]

namespace Recv

def map (f : μ → ν) : Recv μ → Recv ν
  | .ok x => .ok (f x)
  | .lagged n => .lagged n

/-- How many messages a receive is about. -/
def covers : Recv μ → ℕ
  | .ok _ => 1
  | .lagged n => n

/-- The message, when there is one. -/
def message? : Recv μ → Option μ
  | .ok x => some x
  | .lagged _ => none

end Recv

/-- A member: what it listens to, and what waits for it. -/
structure Member (κ : Type*) (μ : Type) where
  key : κ
  waiting : List μ

def Member.hear (m : Member κ μ) (key : κ) (x : μ) : Member κ μ :=
  if m.key = key then { m with waiting := m.waiting ++ [x] } else m

abbrev Hub (ι κ : Type*) (μ : Type) := ι → Option (Member κ μ)

inductive HubAct (ι κ : Type*) (μ : Type) where
  | join (i : ι) (key : κ)
  | publish (key : κ) (x : μ)
  | take (i : ι) (o : Recv μ)
  | leave (i : ι)

namespace Hub

/-- What a member gets next, and what waits for it then. -/
def offer (cap : ℕ) (l : List μ) : Option (Recv μ × List μ) :=
  if cap < l.length then some (.lagged (l.length - cap), l.drop (l.length - cap))
  else
    match l with
    | [] => none
    | x :: rest => some (.ok x, rest)

inductive Step (cap : ℕ) (h : Hub ι κ μ) : HubAct ι κ μ → Hub ι κ μ → Prop
  | join (i : ι) (key : κ) (absent : h i = none) :
      Step cap h (.join i key) (Function.update h i (some ⟨key, []⟩))
  | publish (key : κ) (x : μ) : Step cap h (.publish key x) fun i => (h i).map (·.hear key x)
  | take (i : ι) (m : Member κ μ) (o : Recv μ) (rest : List μ) (member : h i = some m)
      (offered : offer cap m.waiting = some (o, rest)) :
      Step cap h (.take i o) (Function.update h i (some ⟨m.key, rest⟩))
  | leave (i : ι) (m : Member κ μ) (member : h i = some m) : Step cap h (.leave i) (Function.update h i none)

theorem offer_behind {cap : ℕ} {l : List μ} (h : cap < l.length) :
    offer cap l = some (.lagged (l.length - cap), l.drop (l.length - cap)) := if_pos h

theorem offer_cons {cap : ℕ} {x : μ} {l : List μ} (h : ¬ cap < (x :: l).length) :
    offer cap (x :: l) = some (.ok x, l) := if_neg h

theorem offer_map (f : μ → ν) (cap : ℕ) (l : List μ) :
    offer cap (l.map f) = (offer cap l).map fun o => (o.1.map f, o.2.map f) := by
  unfold offer
  rw [List.length_map]
  split
  · simp [Recv.map]
  · cases l <;> rfl

/-- A receiver of a broadcast channel is offered what the channel keeps for it. -/
theorem offer_of_recv {b b' : Broadcast μ} {r : ℕ} {o : Recv μ} {l : List μ} (hl : b.pending r = some l)
    (h : b.recv r = some (o, b')) : ∃ rest, offer b.cap l = some (o, rest) ∧ b'.pending r = some rest := by
  obtain ⟨pos, hpos, rfl⟩ := Option.map_eq_some_iff.mp hl
  have hbound := b.bounded r pos hpos
  simp only [Broadcast.recv, hpos] at h
  split at h
  · rename_i hold
    simp only [Broadcast.oldest] at hold
    cases h
    have hbehind : b.cap < (b.log.drop pos).length := by
      rw [List.length_drop]
      omega
    have hlen : (b.log.drop pos).length - b.cap = b.oldest - pos := by
      rw [List.length_drop, Broadcast.oldest]
      omega
    refine ⟨(b.log.drop pos).drop (b.oldest - pos), ?_, ?_⟩
    · rw [offer_behind hbehind, hlen]
    · rw [Broadcast.pending_moveTo, if_pos rfl, List.drop_drop, Broadcast.oldest]
      congr 2
      omega
  · rename_i hnew
    simp only [Broadcast.oldest] at hnew
    split at h <;> cases h
    rename_i hlt
    have hnear : ¬ b.cap < (b.log.drop pos).length := by
      rw [List.length_drop]
      omega
    rw [List.drop_eq_getElem_cons hlt] at hnear ⊢
    refine ⟨b.log.drop (pos + 1), offer_cons hnear, ?_⟩
    · rw [Broadcast.pending_moveTo, if_pos rfl]

/-! ### What a member is told -/

/-- What was published on a key. -/
def messagesOn (key : κ) (acts : List (HubAct ι κ μ)) : List μ :=
  acts.filterMap fun
    | .publish key' x => if key' = key then some x else none
    | _ => none

/-- What member `i` took. -/
def takenBy (i : ι) (acts : List (HubAct ι κ μ)) : List (Recv μ) :=
  acts.filterMap fun
    | .take j o => if j = i then some o else none
    | _ => none

/-- Member `i` comes or goes. -/
def moves (i : ι) : HubAct ι κ μ → Bool
  | .join j _ | .leave j => j = i
  | _ => false

/-- Taking `os` off the messages `l` leaves `rest`: each message is taken or one of those missed. -/
inductive Consumes : List (Recv μ) → List μ → List μ → Prop
  | nil (l : List μ) : Consumes [] l l
  | ok {os : List (Recv μ)} {l rest : List μ} (x : μ) : Consumes os l rest →
      Consumes (.ok x :: os) (x :: l) rest
  | lagged {os : List (Recv μ)} {l rest : List μ} (skipped : List μ) : Consumes os l rest →
      Consumes (.lagged skipped.length :: os) (skipped ++ l) rest

namespace Consumes

variable {os : List (Recv μ)} {l rest : List μ}

/-- A message more is one more that is left. -/
theorem push (h : Consumes os l rest) (x : μ) : Consumes os (l ++ [x]) (rest ++ [x]) := by
  induction h with
  | nil l => exact .nil _
  | ok y _ ih => exact .ok y ih
  | lagged skipped _ ih =>
    rw [List.append_assoc]
    exact .lagged skipped ih

/-- What is offered next comes off the front of what is left. -/
theorem offered {cap : ℕ} {o : Recv μ} {rest' : List μ} (h : Consumes os l rest)
    (ho : offer cap rest = some (o, rest')) : Consumes (os ++ [o]) l rest' := by
  induction h with
  | nil l =>
    simp only [offer] at ho
    split at ho
    · cases ho
      have hlen : (l.take (l.length - cap)).length = l.length - cap := by
        rw [List.length_take]
        omega
      have hmiss := Consumes.lagged (l.take (l.length - cap)) (.nil (l.drop (l.length - cap)))
      rwa [hlen, List.take_append_drop] at hmiss
    · split at ho <;> cases ho
      exact .ok _ (.nil _)
  | ok x _ ih => exact .ok x (ih ho)
  | lagged skipped _ ih => exact .lagged skipped (ih ho)

/-- Every message was taken, is counted as missed, or is left. -/
theorem count (h : Consumes os l rest) : l.length = (os.map Recv.covers).sum + rest.length := by
  induction h with
  | nil l => simp
  | ok x _ ih => simp only [List.length_cons, List.map_cons, List.sum_cons, Recv.covers]; omega
  | lagged skipped _ ih => simp only [List.length_append, List.map_cons, List.sum_cons, Recv.covers]; omega

/-- What was taken comes in the order of the messages. -/
theorem sublist (h : Consumes os l rest) : (os.filterMap Recv.message? ++ rest).Sublist l := by
  induction h with
  | nil l => exact List.Sublist.refl l
  | ok x _ ih => exact ih.cons_cons x
  | lagged skipped _ ih => exact ih.trans (List.sublist_append_right skipped _)

end Consumes

/-- What member `i` took since it joined, against what was published on its key since then. -/
def Told (acts : List (HubAct ι κ μ)) (i : ι) (m : Member κ μ) : Prop :=
  ∃ before after, acts = before ++ .join i m.key :: after ∧ (∀ a ∈ after, moves i a = false) ∧
    Consumes (takenBy i after) (messagesOn m.key after) m.waiting

variable {cap : ℕ} {h h' : Hub ι κ μ} {acts : List (HubAct ι κ μ)} {a : HubAct ι κ μ} {i : ι} {m : Member κ μ}

omit [DecidableEq ι] in
theorem messagesOn_append (key : κ) (acts acts' : List (HubAct ι κ μ)) :
    messagesOn key (acts ++ acts') = messagesOn key acts ++ messagesOn key acts' := List.filterMap_append

omit [DecidableEq κ] in
theorem takenBy_append (i : ι) (acts acts' : List (HubAct ι κ μ)) :
    takenBy i (acts ++ acts') = takenBy i acts ++ takenBy i acts' := List.filterMap_append

/-- One act more, of whatever kind. -/
theorem Told.extend {m' : Member κ μ} (ht : Told acts i m) (hkey : m'.key = m.key)
    (hmoves : moves i a = false) (hall : ∀ os l, Consumes os l m.waiting →
      Consumes (os ++ takenBy i [a]) (l ++ messagesOn m.key [a]) m'.waiting) : Told (acts ++ [a]) i m' := by
  obtain ⟨before, after, rfl, hno, hcons⟩ := ht
  refine ⟨before, after ++ [a], by rw [hkey]; simp, ?_, ?_⟩
  · intro b hb
    rcases List.mem_append.mp hb with hb | hb
    · exact hno b hb
    · rwa [List.mem_singleton.mp hb]
  · rw [hkey, takenBy_append, messagesOn_append]
    exact hall _ _ hcons

/-- An act that is not about a member adds nothing to its story. -/
theorem Told.other (ht : Told acts i m) (hmoves : moves i a = false) (htakes : takenBy i [a] = [])
    (hmute : messagesOn m.key [a] = []) : Told (acts ++ [a]) i m := by
  refine ht.extend rfl hmoves ?_
  intro os l hcons
  rwa [htakes, hmute, List.append_nil, List.append_nil]

theorem Told.publish (ht : Told acts i m) (key : κ) (x : μ) :
    Told (acts ++ [.publish key x]) i (m.hear key x) := by
  by_cases hk : m.key = key
  · subst hk
    rw [Member.hear, if_pos rfl]
    refine ht.extend rfl rfl ?_
    intro os l hcons
    have hone : messagesOn m.key [(.publish m.key x : HubAct ι κ μ)] = [x] := by simp [messagesOn]
    rw [hone, show takenBy i [(.publish m.key x : HubAct ι κ μ)] = [] from rfl, List.append_nil]
    exact hcons.push x
  · rw [Member.hear, if_neg hk]
    refine ht.other rfl rfl ?_
    simp [messagesOn, Ne.symm hk]

theorem Told.take {o : Recv μ} {rest : List μ} (ht : Told acts i m)
    (ho : offer cap m.waiting = some (o, rest)) : Told (acts ++ [.take i o]) i ⟨m.key, rest⟩ := by
  refine ht.extend rfl rfl ?_
  intro os l hcons
  have hone : takenBy i [(.take i o : HubAct ι κ μ)] = [o] := by simp [takenBy]
  rw [hone, show messagesOn m.key [(.take i o : HubAct ι κ μ)] = [] from rfl, List.append_nil]
  exact hcons.offered ho

theorem told_step (hall : ∀ i m, h i = some m → Told acts i m) (hs : Step cap h a h') :
    ∀ i m, h' i = some m → Told (acts ++ [a]) i m := by
  intro i m hm
  cases hs with
  | join j key absent =>
    by_cases hj : i = j
    · subst hj
      rw [Function.update_self, Option.some.injEq] at hm
      subst hm
      refine ⟨acts, [], rfl, ?_, .nil []⟩
      intro b hb
      cases hb
    · rw [Function.update_of_ne hj] at hm
      exact (hall i m hm).other (by simp [moves, Ne.symm hj]) rfl rfl
  | publish key x =>
    obtain ⟨m₀, hm₀, rfl⟩ := Option.map_eq_some_iff.mp hm
    exact (hall i m₀ hm₀).publish key x
  | take j m₀ o rest member offered =>
    by_cases hj : i = j
    · subst hj
      rw [Function.update_self, Option.some.injEq] at hm
      subst hm
      exact (hall i m₀ member).take offered
    · rw [Function.update_of_ne hj] at hm
      exact (hall i m hm).other rfl (by simp [takenBy, Ne.symm hj]) rfl
  | leave j m₀ member =>
    by_cases hj : i = j
    · subst hj
      rw [Function.update_self] at hm
      cases hm
    · rw [Function.update_of_ne hj] at hm
      exact (hall i m hm).other (by simp [moves, Ne.symm hj]) rfl rfl

/-- Along every path each member is told of every message on its key since it joined, in order: it took
    it, it is among those it was told it missed, or it waits. -/
theorem told (hp : Path (Step cap) (fun _ => none) acts h) (hm : h i = some m) : Told acts i m := by
  refine hp.invariant (I := fun acts h => ∀ i m, h i = some m → Told acts i m) ?_ ?_ i m hm
  · intro i m hm
    cases hm
  · intro acts a h h' hall hs
    exact told_step hall hs

end Hub

end Lib
