import Mathlib.Algebra.GroupWithZero.Nat
import WsServer.Wire

/-! What the web client shows of an event: by induction over the payload, when the decoder reads it, and
    when what it reads is the payload itself. -/

namespace WsServer

open Lib

variable {js : Browser}

/-! ### Numbers and strings -/

theorem build_int {n : ℤ} (h : -(2 ^ 31) ≤ n) (h' : n < 2 ^ 64) :
    build js (.int (IntForm.smallest n) n) = .ok (.number (if 0 ≤ n then roundToF64 n.toNat else n)) := by
  have hsmall : 0 ≤ n → n < 2 ^ 32 → n = roundToF64 n.toNat := by
    intro h0 h32
    rw [roundToF64_of_lt (by omega), Int.toNat_of_nonneg h0]
  unfold IntForm.smallest
  split_ifs with h0 h1 h2 h3 h4 h5 h6 h7
  · rw [build, ← hsmall h0 (by omega)]
    all_goals simp
  · rw [build, ← hsmall h0 (by omega)]
    all_goals simp
  · rw [build, ← hsmall h0 (by omega)]
    all_goals simp
  · rw [build, ← hsmall h0 (by omega)]
    all_goals simp
  · rfl
  · rfl
  · rfl
  · rfl
  · rfl

theorem build_big {n : ℤ} (h : n < -(2 ^ 31)) :
    build js (.int (IntForm.smallest n) n) = .error (.unsupported 0xd3) := by
  unfold IntForm.smallest
  rw [if_neg (by omega), if_neg (by omega), if_neg (by omega), if_neg (by omega), if_neg (by omega)]
  rfl

theorem build_strMsg (s : String) : build js (strMsg s) = .ok (.string (js.textDecode (utf8 s))) := rfl

theorem textDecode_of_noBom (hjs : js.Documented) {s : String} (h : Json.hasBom s = false) :
    js.textDecode (utf8 s) = s := by
  rw [hjs.textDecode, h, if_neg (by decide), String.ofList_toList]

theorem noBom_of_textDecode (hjs : js.Documented) {s : String} (h : js.textDecode (utf8 s) = s) :
    Json.hasBom s = false := by
  by_contra hbom
  rw [Bool.not_eq_false] at hbom
  rw [hjs.textDecode, if_pos hbom, ← String.toList_inj, String.toList_ofList] at h
  have hlen := congrArg List.length h
  rw [List.length_tail] at hlen
  have hnil : s.toList = [] := List.length_eq_zero_iff.mp (by omega)
  rw [Json.hasBom, hnil] at hbom
  cases hbom

/-! ### What is read at all -/

/-- The result of a value that is supported or not. -/
def Settles {α : Type} (supported : Prop) (r : Except DecodeError α) : Prop :=
  (supported ∧ ∃ v, r = .ok v) ∨
    (¬ supported ∧ (r = .error (.unsupported 0xcb) ∨ r = .error (.unsupported 0xd3)))

theorem Settles.bind {α β : Type} {s s' : Prop} {r : Except DecodeError α}
    {f : α → Except DecodeError β} (h : Settles s r) (h' : ∀ v, Settles s' (f v)) :
    Settles (s ∧ s') (r >>= f) := by
  rcases h with ⟨hs, v, rfl⟩ | ⟨hs, rfl | rfl⟩
  · rcases h' v with ⟨hs', u, hu⟩ | ⟨hs', hu⟩
    · exact .inl ⟨⟨hs, hs'⟩, u, hu⟩
    · exact .inr ⟨fun hboth => hs' hboth.2, hu⟩
  · exact .inr ⟨fun hboth => hs hboth.1, .inl rfl⟩
  · exact .inr ⟨fun hboth => hs hboth.1, .inr rfl⟩

theorem Settles.map {α β : Type} {s : Prop} {r : Except DecodeError α} (h : Settles s r) (f : α → β) :
    Settles s (do let v ← r; pure (f v)) := by
  have hboth : Settles (s ∧ True) (r >>= fun v => pure (f v)) :=
    h.bind fun v => .inl ⟨trivial, f v, rfl⟩
  rwa [and_true] at hboth

mutual

theorem settles_msg (hjs : js.Documented) : ∀ x : Json, Settles x.Supported (build js x.msg)
  | .null => .inl ⟨trivial, _, rfl⟩
  | .bool _ => .inl ⟨trivial, _, rfl⟩
  | .int n fits => by
    by_cases h : -(2 ^ 31) ≤ n
    · exact .inl ⟨h, _, build_int h fits.2⟩
    · exact .inr ⟨h, .inr (build_big (by omega))⟩
  | .float _ => .inr ⟨id, .inl rfl⟩
  | .str s => .inl ⟨trivial, _, build_strMsg s⟩
  | .array items => (settles_msgs hjs items).map _
  | .object members => settles_entries hjs members _

theorem settles_msgs (hjs : js.Documented) : ∀ xs : List Json,
    Settles (Json.AllSupported xs) (buildAll js (Json.msgs xs))
  | [] => .inl ⟨trivial, _, rfl⟩
  | x :: xs => (settles_msg hjs x).bind fun _ => (settles_msgs hjs xs).map _

theorem settles_entries (hjs : js.Documented) : ∀ (members : List (String × Json))
    (obj : JsObject),
    Settles (Json.MembersSupported members) (buildEntries js obj (Json.entries members))
  | [], _ => .inl ⟨trivial, _, rfl⟩
  | (k, x) :: rest, obj => by
    refine (settles_msg hjs x).bind fun v => ?_
    simp only [hjs.toPropertyKey]
    exact settles_entries hjs rest _

end

/-! ### What is read as itself -/

/-- A key that is new makes one own property more. -/
theorem setOwn_fresh {key : String} {v : JsValue} : ∀ {own : List (String × JsValue)},
    key ∉ own.map Prod.fst → (setOwn key v own).Perm ((key, v) :: own)
  | [], _ => List.Perm.refl _
  | (k, x) :: rest, h => by
    rw [List.map_cons, List.mem_cons, not_or] at h
    rw [setOwn, if_neg (Ne.symm h.1)]
    split_ifs
    · exact ((setOwn_fresh h.2).cons (k, x)).trans (.swap (key, v) (k, x) rest)
    · exact List.Perm.refl _

/-- An assignment adds at most one own property, and if so a new one beside the others. -/
theorem setOwn_grows (key : String) (v : JsValue) : ∀ own : List (String × JsValue),
    (setOwn key v own).length = own.length ∨ (setOwn key v own).Perm ((key, v) :: own)
  | [] => .inr (List.Perm.refl _)
  | (k, x) :: rest => by
    rw [setOwn]
    split_ifs
    · exact .inl rfl
    · rcases setOwn_grows key v rest with h | h
      · exact .inl (by rw [List.length_cons, h, List.length_cons])
      · exact .inr ((h.cons (k, x)).trans (.swap (key, v) (k, x) rest))
    · exact .inr (List.Perm.refl _)

theorem assign_grows (obj : JsObject) (key : String) (v : JsValue) :
    (assign obj key v).2.length = obj.2.length ∨
      ((assign obj key v).1 = obj.1 ∧ (assign obj key v).2.Perm ((key, v) :: obj.2) ∧
        ((Proto.object obj.1 obj.2).hasSetter = true → key ≠ "__proto__")) := by
  unfold assign
  split_ifs with hproto
  · split <;> exact .inl rfl
  · rcases setOwn_grows key v obj.2 with h | h
    · exact .inl h
    · refine .inr ⟨rfl, h, ?_⟩
      rintro hsetter rfl
      exact hproto (by rw [hsetter]; rfl)

theorem assign_fresh {proto : Proto} {own : List (String × JsValue)} {key : String} {v : JsValue}
    (hproto : key ≠ "__proto__") (h : key ∉ own.map Prod.fst) :
    (assign (proto, own) key v).1 = proto ∧ (assign (proto, own) key v).2.Perm ((key, v) :: own) := by
  unfold assign
  rw [if_neg (by simp [hproto])]
  exact ⟨rfl, setOwn_fresh h⟩

mutual

theorem is_of_faithful (hjs : js.Documented) : ∀ {x : Json}, x.Valid → x.Faithful →
    ∃ v, build js x.msg = .ok v ∧ x.Is v
  | .null, _, _ => ⟨.null, rfl, trivial⟩
  | .bool b, _, _ => ⟨.bool b, rfl, rfl⟩
  | .int n fits, _, hf => by
    obtain ⟨hlo, hround⟩ := hf
    refine ⟨_, build_int hlo fits.2, ?_⟩
    rw [Json.Is]
    split_ifs with h0
    · rw [hround, Int.toNat_of_nonneg h0]
    · rfl
  | .str s, _, hf => ⟨_, build_strMsg s, textDecode_of_noBom hjs hf⟩
  | .array items, hv, hf => by
    obtain ⟨vs, hb, his⟩ := are_of_faithful hjs hv.2 hf
    exact ⟨.array vs, by rw [Json.msg, build, hb]; rfl, his⟩
  | .object members, hv, hf => by
    obtain ⟨own, news, hb, hperm, his⟩ := members_of_faithful hjs [] hv.2.2 hv.2.1 hf fun _ _ =>
      List.not_mem_nil
    exact ⟨.object .base own, hb, rfl, news, hperm, his⟩

theorem are_of_faithful (hjs : js.Documented) : ∀ {xs : List Json}, Json.AllValid xs →
    Json.AllFaithful xs → ∃ vs, buildAll js (Json.msgs xs) = .ok vs ∧ Json.AllAre xs vs
  | [], _, _ => ⟨[], rfl, trivial⟩
  | x :: xs, hv, hf => by
    obtain ⟨v, hb, his⟩ := is_of_faithful hjs hv.1 hf.1
    obtain ⟨vs, hbs, hiss⟩ := are_of_faithful hjs hv.2 hf.2
    exact ⟨v :: vs, by rw [Json.msgs, buildAll, hb, hbs]; rfl, his, hiss⟩

/-- The members are added one by one to the earlier ones. -/
theorem members_of_faithful (hjs : js.Documented) : ∀ {members : List (String × Json)}
    (prior : List (String × JsValue)), Json.MembersValid members → (members.map Prod.fst).Nodup →
    Json.MembersFaithful members → (∀ k ∈ members.map Prod.fst, k ∉ prior.map Prod.fst) →
    ∃ own news, buildEntries js (.base, prior) (Json.entries members) = .ok (.object .base own) ∧
      own.Perm (prior ++ news) ∧ Json.MembersAre members news
  | [], prior, _, _, _, _ => ⟨prior, [], rfl, by rw [List.append_nil], trivial⟩
  | (k, x) :: rest, prior, hv, hnodup, hf, hfresh => by
    obtain ⟨hbom, hproto, hfx, hfrest⟩ := hf
    obtain ⟨hnotin, hnodup⟩ := List.nodup_cons.mp hnodup
    obtain ⟨v, hb, his⟩ := is_of_faithful hjs hv.2.1 hfx
    have hk : k ∉ prior.map Prod.fst := hfresh k List.mem_cons_self
    obtain ⟨hbase, hperm⟩ : (assign (.base, prior) k v).1 = .base ∧
        (assign (.base, prior) k v).2.Perm ((k, v) :: prior) := assign_fresh hproto hk
    have hlater : ∀ k' ∈ rest.map Prod.fst, k' ∉ (assign (.base, prior) k v).2.map Prod.fst := by
      intro k' hk' hmem
      rw [(hperm.map Prod.fst).mem_iff, List.map_cons, List.mem_cons] at hmem
      rcases hmem with rfl | hmem
      · exact hnotin hk'
      · exact hfresh k' (List.mem_cons_of_mem _ hk') hmem
    obtain ⟨own, news, hown, hall, hiss⟩ := members_of_faithful hjs
      (assign (.base, prior) k v).2 hv.2.2 hnodup hfrest hlater
    refine ⟨own, (k, v) :: news, ?_, ?_, rfl, his, hiss⟩
    · rw [Json.entries, buildEntries, build_strMsg, hb]
      simp only [bind, Except.bind, hjs.toPropertyKey, textDecode_of_noBom hjs hbom]
      have hobj : assign (.base, prior) k v = (.base, (assign (.base, prior) k v).2) := Prod.ext hbase rfl
      rw [hobj]
      exact hown
    · exact (hall.trans (hperm.append_right news)).trans List.perm_middle.symm

end

/-! ### What is read as itself is faithful -/

/-- Each member is read under its key, as the client decodes it. -/
def MembersRead (js : Browser) : List (String × Json) → List (String × JsValue) → Prop :=
  List.Forall₂ fun m e => e.1 = js.textDecode (utf8 m.1) ∧ build js m.2.msg = .ok e.2

/-- Members make at most one own property each; if each makes one, they are the members read, and none of
    them reached the setter of `__proto__`. -/
theorem buildEntries_grows (hjs : js.Documented) : ∀ {members : List (String × Json)} {obj : JsObject}
    {proto : Proto} {own : List (String × JsValue)},
    buildEntries js obj (Json.entries members) = .ok (.object proto own) →
    own.length ≤ obj.2.length + members.length ∧
      (own.length = obj.2.length + members.length → ∃ news, own.Perm (obj.2 ++ news) ∧
        MembersRead js members news ∧
          ((Proto.object obj.1 obj.2).hasSetter = true → ∀ e ∈ news, e.1 ≠ "__proto__"))
  | [], obj, proto, own, h => by
    cases h
    refine ⟨Nat.le_refl _, fun _ => ⟨[], by rw [List.append_nil], .nil, ?_⟩⟩
    rintro - e ⟨⟩
  | (k, x) :: rest, obj, proto, own, h => by
    rw [Json.entries, buildEntries, build_strMsg] at h
    simp only [bind, Except.bind, hjs.toPropertyKey] at h
    split at h
    · cases h
    rename_i v hv
    obtain ⟨hle, hfull⟩ := buildEntries_grows hjs h
    rw [List.length_cons]
    rcases assign_grows obj (js.textDecode (utf8 k)) v with hsame | ⟨hproto, hperm, hkey⟩
    · exact ⟨by omega, fun hlen => by omega⟩
    · have hone := hperm.length_eq
      rw [List.length_cons] at hone
      refine ⟨by omega, fun hlen => ?_⟩
      obtain ⟨news, hall, hread, hnone⟩ := hfull (by omega)
      refine ⟨(js.textDecode (utf8 k), v) :: news, ?_, .cons ⟨rfl, hv⟩ hread, ?_⟩
      · exact (hall.trans (hperm.append_right news)).trans List.perm_middle.symm
      · intro hsetter
        have hstill : (Proto.object (assign obj (js.textDecode (utf8 k)) v).1
            (assign obj (js.textDecode (utf8 k)) v).2).hasSetter = true := by
          rw [hproto, Proto.hasSetter, hperm.any_eq, List.any_cons]
          rw [Proto.hasSetter] at hsetter
          simpa [hkey hsetter] using hsetter
        rw [List.forall_mem_cons]
        exact ⟨hkey hsetter, hnone hstill⟩

theorem length_membersAre : ∀ {members : List (String × Json)} {own : List (String × JsValue)},
    Json.MembersAre members own → own.length = members.length
  | [], [], _ => rfl
  | (_, _) :: _, (_, _) :: _, h => congrArg (· + 1) (length_membersAre h.2.2)

theorem keys_membersAre : ∀ {members : List (String × Json)} {own : List (String × JsValue)},
    Json.MembersAre members own → own.map Prod.fst = members.map Prod.fst
  | [], [], _ => rfl
  | (_, _) :: _, (_, _) :: _, ⟨hkey, _, h⟩ => by
    rw [List.map_cons, List.map_cons, keys_membersAre h, hkey]

/-- A key is decoded to itself or to a shorter one. -/
theorem length_textDecode (hjs : js.Documented) (s : String) :
    (js.textDecode (utf8 s)).length ≤ s.length ∧
      ((js.textDecode (utf8 s)).length = s.length → js.textDecode (utf8 s) = s) := by
  cases hbom : Json.hasBom s with
  | false => rw [textDecode_of_noBom hjs hbom]; exact ⟨Nat.le_refl _, fun _ => rfl⟩
  | true =>
    have hne : s.toList ≠ [] := by
      intro hnil
      rw [Json.hasBom, hnil] at hbom
      cases hbom
    have hpos := List.length_pos_iff.mpr hne
    rw [hjs.textDecode, hbom, if_pos rfl, String.length_ofList, List.length_tail, String.length_toList] at *
    exact ⟨by omega, fun hlen => by omega⟩

/-- The keys as they are read have no more characters than the keys, and as many only if each is read as
    itself. -/
theorem keys_read (hjs : js.Documented) : ∀ {members : List (String × Json)}
    {news : List (String × JsValue)}, MembersRead js members news →
    (news.map fun e => e.1.length).sum ≤ (members.map fun m => m.1.length).sum ∧
      ((news.map fun e => e.1.length).sum = (members.map fun m => m.1.length).sum →
        news.map Prod.fst = members.map Prod.fst)
  | [], [], .nil => ⟨Nat.le_refl _, fun _ => rfl⟩
  | (k, _) :: rest, (k', _) :: news, .cons ⟨hkey, _⟩ h => by
    obtain ⟨hle, hsame⟩ := keys_read hjs h
    obtain ⟨hshorter, hself⟩ := length_textDecode hjs k
    obtain rfl : k' = js.textDecode (utf8 k) := hkey
    simp only [List.map_cons, List.sum_cons]
    refine ⟨by omega, fun hsum => ?_⟩
    rw [hself (by omega), hsame (by omega)]

/-- Two lists of the same distinct keys in the same order are one if they have the same entries. -/
theorem eq_of_perm_of_keys {α β : Type} : ∀ {l l' : List (α × β)}, (l.map Prod.fst).Nodup →
    l.map Prod.fst = l'.map Prod.fst → l.Perm l' → l = l'
  | [], [], _, _, _ => rfl
  | (k, x) :: rest, (k', x') :: rest', hnodup, hkeys, hperm => by
    rw [List.map_cons, List.map_cons, List.cons.injEq] at hkeys
    obtain ⟨hkey, hrest⟩ := hkeys
    obtain ⟨hnotin, hnodup⟩ := List.nodup_cons.mp hnodup
    -- The entry of the first key is the first one on both sides, as no later one has its key.
    have hfirst : (k, x) = (k', x') := by
      rcases List.mem_cons.mp (hperm.subset List.mem_cons_self) with hsame | hlater
      · exact hsame
      · rw [hrest] at hnotin
        exact absurd (List.mem_map_of_mem hlater) hnotin
    rw [hfirst] at hperm
    rw [hfirst, eq_of_perm_of_keys hnodup hrest hperm.cons_inv]

mutual

theorem faithful_of_is (hjs : js.Documented) : ∀ {x : Json} {v : JsValue}, x.Valid →
    build js x.msg = .ok v → x.Is v → x.Faithful
  | .null, _, _, _, _ => trivial
  | .bool _, _, _, _, _ => trivial
  | .int n fits, v, _, hb, his => by
    by_cases hlo : -(2 ^ 31) ≤ n
    · rw [Json.msg, build_int hlo fits.2] at hb
      cases hb
      rw [Json.Is] at his
      refine ⟨hlo, ?_⟩
      split_ifs at his with h0
      · omega
      · rw [Int.toNat_of_nonpos (by omega)]
        exact roundToF64_of_lt (by decide)
    · rw [Json.msg, build_big (by omega)] at hb
      cases hb
  | .float _, v, _, hb, _ => by cases hb
  | .str s, v, _, hb, his => by
    cases hb
    exact noBom_of_textDecode hjs his
  | .array items, v, hvalid, hb, his => by
    rw [Json.msg, build] at hb
    cases hall : buildAll js (Json.msgs items) with
    | error e =>
      rw [hall] at hb
      cases hb
    | ok vs =>
      rw [hall] at hb
      cases hb
      exact faithful_of_are hjs hvalid.2 hall his
  | .object members, v, hvalid, hb, his => by
    cases v with
    | object proto own =>
      obtain ⟨-, own', hperm, hare⟩ := his
      have hlen : own.length = members.length := hperm.length_eq.trans (length_membersAre hare)
      obtain ⟨news, hnews, hread, hproto⟩ := (buildEntries_grows hjs hb).2 (by simpa using hlen)
      have hsame : news.Perm own' := hnews.symm.trans hperm
      have hkeys := keys_membersAre hare
      have hnames : news.map Prod.fst = members.map Prod.fst := by
        refine (keys_read hjs hread).2 ?_
        have hlengths := congrArg (List.map String.length) hkeys
        rw [List.map_map, List.map_map] at hlengths
        exact (hsame.map _).sum_nat.trans (congrArg List.sum hlengths)
      obtain rfl : news = own' := by
        refine eq_of_perm_of_keys ?_ (hnames.trans hkeys.symm) hsame
        rw [hnames]
        exact hvalid.2.1
      exact faithful_of_members hjs hvalid.2.2 hread hare (hproto rfl)
    | _ => exact his.elim

theorem faithful_of_are (hjs : js.Documented) : ∀ {xs : List Json} {vs : List JsValue}, Json.AllValid xs →
    buildAll js (Json.msgs xs) = .ok vs → Json.AllAre xs vs → Json.AllFaithful xs
  | [], _, _, _, _ => trivial
  | x :: xs, vs, hvalid, hb, his => by
    rw [Json.msgs, buildAll] at hb
    cases hx : build js x.msg with
    | error e =>
      rw [hx] at hb
      cases hb
    | ok v =>
      cases hxs : buildAll js (Json.msgs xs) with
      | error e =>
        rw [hx, hxs] at hb
        cases hb
      | ok vs' =>
        rw [hx, hxs] at hb
        cases hb
        exact ⟨faithful_of_is hjs hvalid.1 hx his.1, faithful_of_are hjs hvalid.2 hxs his.2⟩

theorem faithful_of_members (hjs : js.Documented) : ∀ {members : List (String × Json)}
    {news : List (String × JsValue)}, Json.MembersValid members → MembersRead js members news →
    Json.MembersAre members news → (∀ e ∈ news, e.1 ≠ "__proto__") → Json.MembersFaithful members
  | [], _, _, _, _, _ => trivial
  | (k, x) :: rest, (k', v) :: news, hvalid, .cons ⟨hkey, hb⟩ hread, ⟨hsame, his, hiss⟩, hproto => by
    obtain ⟨hfirst, hothers⟩ := List.forall_mem_cons.mp hproto
    refine ⟨noBom_of_textDecode hjs (hkey.symm.trans hsame), ?_, faithful_of_is hjs hvalid.2.1 hb his, ?_⟩
    · rw [← hsame]
      exact hfirst
    · exact faithful_of_members hjs hvalid.2.2 hread hiss hothers

end

/-! ### Events -/

theorem wellFormed_strMsg {s : String} (h : (utf8 s).length < 2 ^ 32) : (strMsg s).WellFormed :=
  StrForm.smallest_fits h

theorem length_msgs : ∀ xs : List Json, (Json.msgs xs).length = xs.length
  | [] => rfl
  | _ :: xs => congrArg (· + 1) (length_msgs xs)

theorem length_entries : ∀ members : List (String × Json), (Json.entries members).length = members.length
  | [] => rfl
  | (_, _) :: rest => congrArg (· + 1) (length_entries rest)

mutual

theorem wellFormed_msg : ∀ {x : Json}, x.Valid → x.msg.WellFormed
  | .null, _ => trivial
  | .bool _, _ => trivial
  | .int _ fits, _ => IntForm.smallest_holds fits.1 fits.2
  | .float _, _ => length_bigEndian 8 _
  | .str _, h => wellFormed_strMsg h
  | .array items, h => ⟨by rw [length_msgs]; exact SeqForm.smallest_fits h.1, wellFormed_msgs h.2⟩
  | .object members, h =>
    ⟨by rw [length_entries]; exact SeqForm.smallest_fits h.1, wellFormed_entries h.2.2⟩

theorem wellFormed_msgs : ∀ {xs : List Json}, Json.AllValid xs → Msg.AllWellFormed (Json.msgs xs)
  | [], _ => trivial
  | _ :: _, h => ⟨wellFormed_msg h.1, wellFormed_msgs h.2⟩

theorem wellFormed_entries : ∀ {members : List (String × Json)}, Json.MembersValid members →
    Msg.EntriesWellFormed (Json.entries members)
  | [], _ => trivial
  | (_, _) :: _, h => ⟨wellFormed_strMsg h.1, wellFormed_msg h.2.1, wellFormed_entries h.2.2⟩

end

/-- The decoder answers for a value what `build` says of it. -/
theorem decodeMsgpack_msg {x : Json} (hv : x.Valid) (hd : x.msg.depth ≤ js.stack) :
    decodeMsgpack js x.msg.encode = build js x.msg := by
  have hdec : decodeValue js js.stack (x.msg.encode ++ []) = _ :=
    decodeValue_encode [] (wellFormed_msg hv) hd
  rw [List.append_nil] at hdec
  rw [decodeMsgpack, Decoder.whole, hdec]
  cases build js x.msg <;> rfl

/-- What the client makes of the bytes of a value. -/
structure ReadBack (js : Browser) (x : Json) (bytes : List UInt8) : Prop where
  reads : (∃ v, decodeMsgpack js bytes = .ok v) ↔ x.Supported
  refuses : ¬ x.Supported → decodeMsgpack js bytes = .error (.unsupported 0xcb) ∨
    decodeMsgpack js bytes = .error (.unsupported 0xd3)
  shows : (∃ v, decodeMsgpack js bytes = .ok v ∧ x.Is v) ↔ x.Faithful

/-- The client reads what it supports, names what it does not, and shows what is faithful. -/
theorem read_back {x : Json} (hjs : js.Documented) (hv : x.Valid) (hd : x.msg.depth ≤ js.stack) :
    ReadBack js x x.msg.encode := by
  have hdec := decodeMsgpack_msg hv hd
  rcases settles_msg hjs x with ⟨hs, v, hb⟩ | ⟨hs, hb⟩
  · refine ⟨⟨fun _ => hs, fun _ => ⟨v, hdec.trans hb⟩⟩, fun hns => (hns hs).elim, ?_⟩
    constructor
    · rintro ⟨u, hu, his⟩
      exact faithful_of_is hjs hv (hdec.symm.trans hu) his
    · intro hf
      obtain ⟨u, hu, his⟩ := is_of_faithful hjs hv hf
      exact ⟨u, hdec.trans hu, his⟩
  · have hno : ∀ u, decodeMsgpack js x.msg.encode ≠ .ok u := by
      intro u hu
      rw [hdec] at hu
      rcases hb with hb | hb <;> rw [hb] at hu <;> cases hu
    refine ⟨⟨?_, fun h => (hs h).elim⟩, fun _ => by rwa [hdec], ?_, ?_⟩
    · rintro ⟨u, hu⟩
      exact (hno u hu).elim
    · rintro ⟨u, hu, -⟩
      exact (hno u hu).elim
    · intro hf
      obtain ⟨u, hu, -⟩ := is_of_faithful hjs hv hf
      exact (hno u (hdec.trans hu)).elim

/-! ### A browser -/

/-- A browser that reads valid UTF-8, shows the replacement character for anything else, and takes no key
    but strings. -/
def Browser.strict : Browser where
  textDecode bytes :=
    match String.fromUTF8? ⟨bytes.toArray⟩ with
    | some s => String.ofList (if Json.hasBom s then s.toList.tail else s.toList)
    | none => String.ofList [Char.ofNat 0xFFFD]
  toPropertyKey
    | .string s => .ok s
    | _ => .error "Cannot convert object to primitive value"
  stack := 1000

theorem fromUTF8?_utf8 (s : String) : String.fromUTF8? ⟨(utf8 s).toArray⟩ = some s := by
  rw [show (⟨(utf8 s).toArray⟩ : ByteArray) = s.toByteArray by simp [utf8], String.fromUTF8?,
    dif_pos s.isValidUTF8]
  rfl

theorem Browser.strict_documented : Browser.strict.Documented where
  textDecode s := by
    simp only [Browser.strict, fromUTF8?_utf8]
  toPropertyKey _ := rfl

end WsServer
