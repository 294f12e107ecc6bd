import Mathlib.Data.List.Basic

/-! Decoders that take a value off the front of a byte string, or fail. A decoder streams when input that
    arrives later changes nothing it has already answered: only the one error `short` asks for more.
    A streaming decoder of whole messages accepts no proper beginning of a message and no message with
    something behind it. -/

namespace Lib

/-- Take a value off the front, or fail. -/
abbrev Decoder (β ε : Type) := StateT (List β) (Except ε)

variable {β ε α γ : Type}

namespace Decoder

/-- Fail. -/
def fail (e : ε) : Decoder β ε α := fun _ => .error e

/-- Take `n` elements. -/
def take (short : ε) (n : ℕ) : Decoder β ε (List β) := fun bs =>
  if bs.length < n then .error short else .ok (bs.take n, bs.drop n)

/-- Take one element. -/
def next (short : ε) : Decoder β ε β
  | [] => .error short
  | b :: bs => .ok (b, bs)

/-- A message and nothing behind it. -/
def whole (trailing : ε) (d : Decoder β ε α) (bs : List β) : Except ε α :=
  match d bs with
  | .ok (x, []) => .ok x
  | .ok (_, _ :: _) => .error trailing
  | .error e => .error e

theorem bind_ok {d : Decoder β ε α} {f : α → Decoder β ε γ} {bs rest : List β} {y : γ} :
    (d >>= f) bs = .ok (y, rest) ↔ ∃ x mid, d bs = .ok (x, mid) ∧ f x mid = .ok (y, rest) := by
  simp only [bind, StateT.bind]
  cases d bs with
  | error e => simp [Except.bind]
  | ok r => simp [Except.bind, Prod.ext_iff, and_assoc]

theorem bind_of_ok {d : Decoder β ε α} {f : α → Decoder β ε γ} {bs mid : List β} {x : α}
    (h : d bs = .ok (x, mid)) : (d >>= f) bs = f x mid := by
  simp only [bind, StateT.bind, h, Except.bind]

theorem bind_of_error {d : Decoder β ε α} {f : α → Decoder β ε γ} {bs : List β} {e : ε}
    (h : d bs = .error e) : (d >>= f) bs = .error e := by
  simp only [bind, StateT.bind, h, Except.bind]

/-- A decoder that gives `r`, and then one that gives `g` of it. -/
theorem bind_map {d : Decoder β ε α} {f : α → Decoder β ε γ} {bs mid rest : List β} {r : Except ε α}
    {g : α → Except ε γ} (hd : d bs = r.map fun x => (x, mid))
    (hf : ∀ x, f x mid = (g x).map fun y => (y, rest)) :
    (d >>= f) bs = (r >>= g).map fun y => (y, rest) := by
  cases r with
  | error e => exact bind_of_error hd
  | ok x => rw [bind_of_ok hd]; exact hf x

@[simp] theorem pure_apply (x : α) (bs : List β) : (pure x : Decoder β ε α) bs = .ok (x, bs) := rfl

@[simp] theorem fail_apply (e : ε) (bs : List β) : (fail e : Decoder β ε α) bs = .error e := rfl

theorem take_append {short : ε} {xs : List β} {n : ℕ} (h : xs.length = n) (rest : List β) :
    take short n (xs ++ rest) = .ok (xs, rest) := by
  subst h
  rw [take, if_neg (by simp), List.take_left, List.drop_left]

end Decoder

/-- The decoder takes exactly `k` elements, and gives `f` of them. -/
structure Takes (short : ε) (k : ℕ) (d : Decoder β ε α) (f : List β → α) : Prop where
  full : ∀ {xs : List β} (rest : List β), xs.length = k → d (xs ++ rest) = .ok (f xs, rest)
  cut : ∀ {bs : List β}, bs.length < k → d bs = .error short

namespace Takes

variable {short : ε} {k m : ℕ} {d : Decoder β ε α} {d' : Decoder β ε γ} {f : List β → α} {g : List β → γ}

theorem take (k : ℕ) : Takes short k (Decoder.take short k : Decoder β ε (List β)) id where
  full := fun rest h => Decoder.take_append h rest
  cut := fun h => by rw [Decoder.take, if_pos h]

theorem next (f : List β → β) (hf : ∀ b, f [b] = b) :
    Takes short 1 (Decoder.next short : Decoder β ε β) f where
  full := by
    rintro xs rest h
    obtain ⟨b, rfl⟩ := List.length_eq_one_iff.mp h
    rw [hf]
    rfl
  cut := by
    rintro bs h
    rw [List.length_eq_zero_iff.mp (Nat.lt_one_iff.mp h)]
    rfl

theorem congr {f' : List β → α} (h : Takes short k d f) (hf : ∀ xs, xs.length = k → f xs = f' xs) :
    Takes short k d f' where
  full := fun {xs} rest hlen => by rw [h.full rest hlen, hf xs hlen]
  cut := h.cut

/-- What is made of the value takes nothing more. -/
theorem map (h : Takes short k d f) (φ : α → γ) :
    Takes short k (do let x ← d; pure (φ x)) fun xs => φ (f xs) where
  full := fun rest hlen => Decoder.bind_ok.mpr ⟨_, _, h.full rest hlen, rfl⟩
  cut := fun hlen => Decoder.bind_of_error (h.cut hlen)

theorem both {δ : Type} (h : Takes short k d f) (h' : Takes short m d' g) (φ : α → γ → δ) :
    Takes short (k + m) (do let x ← d; let y ← d'; pure (φ x y))
      fun xs => φ (f (xs.take k)) (g (xs.drop k)) where
  full := by
    rintro xs rest hlen
    have hk : (xs.take k).length = k := by rw [List.length_take]; omega
    have hm : (xs.drop k).length = m := by rw [List.length_drop]; omega
    refine Decoder.bind_ok.mpr ⟨f (xs.take k), xs.drop k ++ rest, ?_, ?_⟩
    · rw [← h.full _ hk, ← List.append_assoc, List.take_append_drop]
    · exact (h'.map (φ _)).full rest hm
  cut := by
    rintro bs hlen
    by_cases hk : bs.length < k
    · exact Decoder.bind_of_error (h.cut hk)
    · have htake : (bs.take k).length = k := by rw [List.length_take]; omega
      have hd := h.full (bs.drop k) htake
      rw [List.take_append_drop] at hd
      rw [Decoder.bind_of_ok hd]
      exact Decoder.bind_of_error (h'.cut (by rw [List.length_drop]; omega))

/-- What was there when the value was taken. -/
theorem inv (h : Takes short k d f) {bs rest : List β} {x : α} (hd : d bs = .ok (x, rest)) :
    ∃ xs, xs.length = k ∧ bs = xs ++ rest ∧ x = f xs := by
  by_cases hlen : bs.length < k
  · rw [h.cut hlen] at hd
    cases hd
  · have htake : (bs.take k).length = k := by rw [List.length_take]; omega
    have hfull := h.full (bs.drop k) htake
    rw [List.take_append_drop, hd, Except.ok.injEq, Prod.mk.injEq] at hfull
    exact ⟨bs.take k, htake, by rw [hfull.2, List.take_append_drop], hfull.1⟩

end Takes

/-- What a decoder answers stays its answer when more input follows, unless it was `short`. -/
structure Streams (short : ε) (d : Decoder β ε α) : Prop where
  more : ∀ {bs x rest} (extra : List β), d bs = .ok (x, rest) → d (bs ++ extra) = .ok (x, rest ++ extra)
  final : ∀ {bs e} (extra : List β), d bs = .error e → e ≠ short → d (bs ++ extra) = .error e

namespace Streams

variable {short trailing : ε} {d : Decoder β ε α} {f : α → Decoder β ε γ}

theorem pure (x : α) : Streams short (pure x : Decoder β ε α) where
  more := by
    rintro bs y rest extra h
    cases h
    rfl
  final := by
    rintro bs e extra h
    cases h

theorem fail (e : ε) : Streams short (Decoder.fail e : Decoder β ε α) where
  more := by
    rintro bs y rest extra h
    cases h
  final := by
    rintro bs e' extra h -
    cases h
    rfl

theorem of_takes {k : ℕ} {g : List β → α} (h : Takes short k d g) : Streams short d where
  more := by
    rintro bs x rest extra hd
    obtain ⟨xs, hlen, rfl, rfl⟩ := h.inv hd
    rw [List.append_assoc]
    exact h.full _ hlen
  final := by
    rintro bs e extra hd hne
    by_cases hlen : bs.length < k
    · rw [h.cut hlen] at hd
      cases hd
      exact (hne rfl).elim
    · have htake : (bs.take k).length = k := by rw [List.length_take]; omega
      have hfull := h.full (bs.drop k) htake
      rw [List.take_append_drop, hd] at hfull
      cases hfull

theorem bind (hd : Streams short d) (hf : ∀ x, Streams short (f x)) : Streams short (d >>= f) where
  more := by
    rintro bs y rest extra h
    obtain ⟨x, mid, hx, hy⟩ := Decoder.bind_ok.mp h
    exact Decoder.bind_ok.mpr ⟨x, mid ++ extra, hd.more extra hx, (hf x).more extra hy⟩
  final := by
    rintro bs e extra h hne
    cases hx : d bs with
    | error e' =>
      rw [Decoder.bind_of_error hx, Except.error.injEq] at h
      subst h
      exact Decoder.bind_of_error (hd.final extra hx hne)
    | ok r =>
      obtain ⟨x, mid⟩ := r
      rw [Decoder.bind_of_ok hx] at h
      rw [Decoder.bind_of_ok (hd.more extra hx)]
      exact (hf x).final extra h hne

/-- A decoder that needed the later input had not enough without it. -/
theorem short_of_cut (hd : Streams short d) {bs extra rest : List β} {x : α}
    (h : d (bs ++ extra) = .ok (x, rest)) (hlen : rest.length < extra.length) :
    d bs = .error short := by
  cases hb : d bs with
  | ok r =>
    obtain ⟨y, mid⟩ := r
    have hmore := hd.more extra hb
    rw [h, Except.ok.injEq, Prod.mk.injEq] at hmore
    rw [hmore.2, List.length_append] at hlen
    omega
  | error e =>
    by_contra hne
    have hfinal := hd.final extra hb fun he => hne (by rw [he])
    rw [h] at hfinal
    cases hfinal

/-- A proper beginning of a message is short. -/
theorem whole_cut (hd : Streams short d) {bs extra : List β} {x : α} (hne : extra ≠ [])
    (h : d.whole trailing (bs ++ extra) = .ok x) : d.whole trailing bs = .error short := by
  have hok : d (bs ++ extra) = .ok (x, []) := by
    unfold Decoder.whole at h
    split at h
    · rename_i y hy
      rwa [Except.ok.inj h] at hy
    · cases h
    · cases h
  rw [Decoder.whole, hd.short_of_cut hok (by simpa using List.length_pos_iff.mpr hne)]

/-- A message with something behind it is refused for what is behind it. -/
theorem whole_trailing (hd : Streams short d) {bs extra : List β} {x : α} (hne : extra ≠ [])
    (h : d.whole trailing bs = .ok x) : d.whole trailing (bs ++ extra) = .error trailing := by
  unfold Decoder.whole at h
  split at h
  · rename_i y hy
    obtain ⟨b, more, rfl⟩ := List.exists_cons_of_ne_nil hne
    rw [Decoder.whole, hd.more _ hy, List.nil_append]
  · cases h
  · cases h

/-- What is refused for another reason stays refused for it, whatever follows. -/
theorem whole_final (hd : Streams short d) {bs : List β} {e : ε} (extra : List β)
    (h : d.whole trailing bs = .error e) (hne : e ≠ short) :
    d.whole trailing (bs ++ extra) = .error e := by
  unfold Decoder.whole at h
  split at h
  · cases h
  · rename_i x b rest hx
    cases h
    rw [Decoder.whole, hd.more extra hx, List.cons_append]
  · rename_i e' he
    cases h
    rw [Decoder.whole, hd.final extra he hne]

end Streams

end Lib
