import Mathlib.Data.List.Basic

/-! Readers: functions that take a value off the front of a text, or fail and take nothing. `Eats` says
    which characters a reader can take, so that a text read to its end is known to have no others. -/

namespace Lib

/-- Read a value off the front. -/
abbrev Reader (α : Type) := List Char → Option (α × List Char)

namespace Reader

variable {α β : Type}

/-- Everything that is read satisfies `p`. -/
def Eats (p : Char → Bool) (r : Reader α) : Prop :=
  ∀ s x rest, r s = some (x, rest) → ∃ pre, s = pre ++ rest ∧ ∀ c ∈ pre, p c = true

/-- Read this character. -/
def char (c : Char) : Reader Unit
  | [] => none
  | d :: rest => if d = c then some ((), rest) else none

/-- One reader after another. -/
def andThen (r : Reader α) (f : α → Reader β) : Reader β := fun s =>
  (r s).bind fun q => f q.1 q.2

/-- The value that the whole text stands for. -/
def parse (r : Reader α) (s : List Char) : Option α :=
  match r s with
  | some (x, []) => some x
  | _ => none

variable {p : Char → Bool} {r : Reader α} {f : α → Reader β}

theorem Eats.char {c : Char} (h : p c = true) : Eats p (Reader.char c) := by
  intro s x rest hs
  cases s with
  | nil => cases hs
  | cons d rest' =>
    simp only [Reader.char, Option.ite_none_right_eq_some, Option.some.injEq, Prod.mk.injEq] at hs
    obtain ⟨rfl, -, rfl⟩ := hs
    exact ⟨[d], rfl, fun e he => by rwa [List.mem_singleton.mp he]⟩

theorem Eats.andThen (hr : Eats p r) (hf : ∀ x, Eats p (f x)) : Eats p (r.andThen f) := by
  intro s y rest hs
  obtain ⟨⟨x, mid⟩, hx, hy⟩ := Option.bind_eq_some_iff.mp hs
  obtain ⟨pre, rfl, hpre⟩ := hr s x mid hx
  obtain ⟨post, rfl, hpost⟩ := hf x mid y rest hy
  refine ⟨pre ++ post, (List.append_assoc _ _ _).symm, fun c hc => ?_⟩
  rcases List.mem_append.mp hc with hc | hc
  · exact hpre c hc
  · exact hpost c hc

/-- Returning a value reads nothing. -/
theorem eats_pure (x : α) : Eats p (fun s => some (x, s)) := by
  rintro s y rest hs
  cases hs
  exact ⟨[], rfl, nofun⟩

/-- A text that parses has no other characters. -/
theorem Eats.parse (hr : Eats p r) {s : List Char} {x : α} (h : r.parse s = some x) :
    ∀ c ∈ s, p c = true := by
  unfold Reader.parse at h
  split at h
  · rename_i y hs
    obtain ⟨pre, rfl, hpre⟩ := hr _ _ _ hs
    rw [List.append_nil]
    exact hpre
  · cases h

end Reader

end Lib
