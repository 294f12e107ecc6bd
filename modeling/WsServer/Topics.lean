import Mathlib.Data.List.DropRight
import Mathlib.Data.List.Infix

/-! Topic names: `normalize_topic`, `extract_topic` (`server.rs`) and `tenant_topic` (`state.rs`).
    A topic channel is found by the key `tenant:topic` alone, so two tenants share a channel exactly
    when two of their keys are equal. `Collides` says when that can happen: one tenant id must be the
    other one, a colon, and a string that is short enough and has no leading slash. -/

namespace WsServer

/-- `char::is_whitespace`: the Unicode property White_Space. -/
def isWhitespace (c : Char) : Bool :=
  let n := c.toNat
  (9 ≤ n && n ≤ 13) || n = 0x20 || n = 0x85 || n = 0xA0 || n = 0x1680 ||
    (0x2000 ≤ n && n ≤ 0x200A) || n = 0x2028 || n = 0x2029 || n = 0x202F || n = 0x205F || n = 0x3000

/-- `str::trim` -/
def trim (s : List Char) : List Char := (s.dropWhile isWhitespace).rdropWhile isWhitespace

/-- Trim, strip leading slashes, cut to 128 characters; an empty name is `public`. -/
def normalizeTopic (topic : String) : String :=
  let topic := (trim topic.toList).dropWhile (· = '/')
  if topic.isEmpty then "public" else String.ofList (topic.take 128)

/-- The internal key of a tenant's topic. -/
def tenantTopic (tenantId topic : String) : String := tenantId ++ ":" ++ topic

/-- The client-facing name in a key: what follows the first `:`, or the whole key without one. -/
def extractTopic (topicKey : String) : String :=
  match topicKey.toList.dropWhile (· ≠ ':') with
  | [] => topicKey
  | _ :: topic => String.ofList topic

/-! ### Normalized names -/

theorem normalizeTopic_toList (topic : String) :
    (normalizeTopic topic).toList = "public".toList ∨
      ∃ l, l ≠ [] ∧ l.head? ≠ some '/' ∧ (normalizeTopic topic).toList = l.take 128 := by
  unfold normalizeTopic
  set l := (trim topic.toList).dropWhile (· = '/') with hl
  cases hc : l with
  | nil => left; rfl
  | cons c cs =>
    right
    refine ⟨c :: cs, List.cons_ne_nil c cs, ?_, by simp⟩
    have hhead := List.head?_dropWhile_not (· = '/') (trim topic.toList)
    rw [← hl, hc] at hhead
    simpa using hhead

/-- A normalized name has between 1 and 128 characters. -/
theorem normalizeTopic_length (topic : String) :
    1 ≤ (normalizeTopic topic).toList.length ∧ (normalizeTopic topic).toList.length ≤ 128 := by
  rcases normalizeTopic_toList topic with h | ⟨l, hne, -, h⟩
  · rw [h]; decide
  · have hpos := List.length_pos_iff.mpr hne
    rw [h, List.length_take]; omega

/-- A normalized name has no leading slash. -/
theorem normalizeTopic_head (topic : String) :
    (normalizeTopic topic).toList.head? ≠ some '/' := by
  rcases normalizeTopic_toList topic with h | ⟨l, hne, hhead, h⟩
  · rw [h]; decide
  · obtain ⟨c, cs, rfl⟩ := List.exists_cons_of_ne_nil hne
    rw [h]; simpa using hhead

/-- A short name without a leading slash that ends in `x` is normalized from itself behind a slash. -/
theorem normalizeTopic_slash {l : List Char} (hhead : l.head? ≠ some '/') (hlen : l.length ≤ 127) :
    normalizeTopic (String.ofList ('/' :: (l ++ ['x']))) = String.ofList (l ++ ['x']) := by
  have hx : (l ++ ['x']).head? ≠ some '/' := by
    cases l with
    | nil => decide
    | cons c cs => simpa using hhead
  have htrim : trim ('/' :: (l ++ ['x'])) = '/' :: (l ++ ['x']) := by
    rw [trim, List.dropWhile_cons_of_neg (by decide), ← List.cons_append,
      List.rdropWhile_concat_neg _ _ _ (by decide)]
  have hdrop : ('/' :: (l ++ ['x'])).dropWhile (· = '/') = l ++ ['x'] := by
    rw [List.dropWhile_cons_of_pos (by decide)]
    obtain ⟨c, cs, hc⟩ := List.exists_cons_of_ne_nil (l := l ++ ['x']) (by simp)
    rw [hc] at hx ⊢
    exact List.dropWhile_cons_of_neg (by simpa using hx)
  rw [normalizeTopic, String.toList_ofList, htrim, hdrop, if_neg (by simp),
    List.take_of_length_le (by simp; omega)]

/-! ### When two tenants share a key -/

/-- `t₂` continues `t₁` with a colon and a string that a topic name can begin with. -/
def Collides (t₁ t₂ : String) : Prop :=
  ∃ s : List Char, t₂.toList = t₁.toList ++ ':' :: s ∧ s.length ≤ 126 ∧ s.head? ≠ some '/'

theorem tenantTopic_toList (t topic : String) :
    (tenantTopic t topic).toList = t.toList ++ ':' :: topic.toList := by
  simp [tenantTopic, String.toList_append]

/-- Colliding tenants do share a key. -/
theorem shared_of_collides {t₁ t₂ : String} (h : Collides t₁ t₂) :
    ∃ a b, tenantTopic t₁ (normalizeTopic a) = tenantTopic t₂ (normalizeTopic b) := by
  obtain ⟨s, ht, hlen, hhead⟩ := h
  have hs : (s ++ [':']).head? ≠ some '/' := by
    cases s with
    | nil => decide
    | cons c cs => simpa using hhead
  refine ⟨String.ofList ('/' :: ((s ++ [':']) ++ ['x'])), "x", ?_⟩
  rw [normalizeTopic_slash hs (by simp; omega), ← String.toList_inj, tenantTopic_toList,
    tenantTopic_toList, ht, show (normalizeTopic "x").toList = ['x'] by decide]
  simp

/-- A shared key of tenants of different lengths makes the longer one collide with the shorter. -/
theorem collides_of_shared {t₁ t₂ a b : String} (hlt : t₁.toList.length < t₂.toList.length)
    (h : tenantTopic t₁ (normalizeTopic a) = tenantTopic t₂ (normalizeTopic b)) :
    Collides t₁ t₂ := by
  rw [← String.toList_inj, tenantTopic_toList, tenantTopic_toList] at h
  obtain ⟨s, hs⟩ : t₁.toList ++ [':'] <+: t₂.toList := by
    have hpre : t₁.toList ++ [':'] <+: t₂.toList ++ ':' :: (normalizeTopic b).toList :=
      ⟨(normalizeTopic a).toList, by simpa using h⟩
    exact List.prefix_of_prefix_length_le hpre (List.prefix_append _ _) (by simp; omega)
  have ht : t₂.toList = t₁.toList ++ ':' :: s := by simpa using hs.symm
  have ha : (normalizeTopic a).toList = s ++ ':' :: (normalizeTopic b).toList := by
    rw [ht] at h; simpa using h
  refine ⟨s, ht, ?_, ?_⟩
  · have h1 := (normalizeTopic_length a).2
    have h2 := (normalizeTopic_length b).1
    rw [ha, List.length_append, List.length_cons] at h1
    omega
  · have hhead := normalizeTopic_head a
    rw [ha] at hhead
    cases s with
    | nil => simp
    | cons c cs => simpa using hhead

/-- Two tenants have no key in common exactly when they are equal or neither collides with the
    other. -/
theorem shared_key_iff (t₁ t₂ : String) :
    (∃ a b, tenantTopic t₁ (normalizeTopic a) = tenantTopic t₂ (normalizeTopic b)) ↔
      t₁ = t₂ ∨ Collides t₁ t₂ ∨ Collides t₂ t₁ := by
  constructor
  · rintro ⟨a, b, h⟩
    rcases lt_trichotomy t₁.toList.length t₂.toList.length with hlt | heq | hgt
    · exact Or.inr (Or.inl (collides_of_shared hlt h))
    · rw [← String.toList_inj, tenantTopic_toList, tenantTopic_toList] at h
      exact Or.inl (String.toList_inj.mp (List.append_inj h heq).1)
    · exact Or.inr (Or.inr (collides_of_shared hgt h.symm))
  · rintro (rfl | h | h)
    · exact ⟨"x", "x", rfl⟩
    · exact shared_of_collides h
    · obtain ⟨a, b, hab⟩ := shared_of_collides h
      exact ⟨b, a, hab.symm⟩

end WsServer
