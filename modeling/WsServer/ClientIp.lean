import WsServer.Lib.Reader
import WsServer.Server

/-! The address of a client (`resolve_client_ip`). Behind a proxy it is read from `X-Forwarded-For` or
    `X-Real-IP`, with the parser of the standard library. The proxy of the README appends the address of
    its peer to what the client sent; the code reads the first entry, which is then the client's. -/

namespace WsServer

open Lib

variable {E : Ext}

/-! ### `IpAddr::from_str` -/

/-- `char::to_digit` -/
def toDigit (radix : ℕ) (c : Char) : Option ℕ :=
  let n := c.toNat
  let digit :=
    if 48 ≤ n ∧ n ≤ 57 then some (n - 48)
    else if 97 ≤ n ∧ n ≤ 122 then some (n - 87)
    else if 65 ≤ n ∧ n ≤ 90 then some (n - 55)
    else none
  digit.filter fun d => d < radix

/-- `read_number`, for a type of `bound` values. -/
def readNumber (radix maxDigits : ℕ) (allowZeroPrefix : Bool) (bound : ℕ) : Reader ℕ := fun s =>
  let digits := s.takeWhile fun c => (toDigit radix c).isSome
  let value := digits.foldl (fun n c => n * radix + (toDigit radix c).getD 0) 0
  if digits.length = 0 ∨ maxDigits < digits.length then none
  else if !allowZeroPrefix ∧ digits.head? = some '0' ∧ 1 < digits.length then none
  else if value < bound then some (value, s.dropWhile fun c => (toDigit radix c).isSome)
  else none

/-- `read_separator`; there is none before the first item. -/
def readSeparator {α : Type} (sep : Char) (first : Bool) (inner : Reader α) : Reader α :=
  if first then inner else (Reader.char sep).andThen fun _ => inner

def readIpv4Addr : Reader ℕ :=
  let octet first := readSeparator '.' first (readNumber 10 3 false 256)
  (octet true).andThen fun a => (octet false).andThen fun b => (octet false).andThen fun c =>
    (octet false).andThen fun d => fun s => some (((a * 256 + b) * 256 + c) * 256 + d, s)

/-- `read_groups`: up to `left` groups, and whether they end in an embedded IPv4 address. -/
def readGroups : Bool → ℕ → List Char → (List ℕ × Bool) × List Char
  | _, 0, s => (([], false), s)
  | first, left + 1, s =>
    match if 1 ≤ left then readSeparator ':' first readIpv4Addr s else none with
    | some (v4, s) => (([v4 / 65536, v4 % 65536], true), s)
    | none =>
      match readSeparator ':' first (readNumber 16 4 true 65536) s with
      | some (group, s) =>
        let r := readGroups false left s
        ((group :: r.1.1, r.1.2), r.2)
      | none => (([], false), s)

/-- Eight groups of 16 bits. -/
def ofGroups (groups : List ℕ) : BitVec 128 :=
  BitVec.ofNat 128 (groups.foldl (fun n g => n * 65536 + g) 0)

def readIpv6Addr : Reader (BitVec 128) :=
  Reader.andThen (fun s => some (readGroups true 8 s)) fun head =>
    if head.1.length = 8 then fun s => some (ofGroups head.1, s)
    else if head.2 then fun _ => none
    else (Reader.char ':').andThen fun _ => (Reader.char ':').andThen fun _ =>
      Reader.andThen (fun s => some (readGroups true (8 - (head.1.length + 1)) s)) fun tail => fun s =>
        some (ofGroups
          (head.1 ++ List.replicate (8 - head.1.length - tail.1.length) 0 ++ tail.1), s)

def readIpAddr : Reader IpAddr := fun s =>
  match readIpv4Addr s with
  | some (v4, s) => some (.v4 (UInt32.ofNat v4), s)
  | none => (readIpv6Addr s).map fun q => (.v6 q.1, q.2)

/-- `parse::<IpAddr>()` -/
def parseIpAddr (s : List Char) : Option IpAddr := readIpAddr.parse s

/-! ### Headers -/

/-- The headers of a request, with names in lower case. -/
abbrev HeaderMap := List (String × List UInt8)

/-- The first value under a name. -/
def HeaderMap.get (headers : HeaderMap) (name : String) : Option (List UInt8) :=
  (headers.find? fun h => h.1 = name).map (·.2)

/-- All values under a name. -/
def HeaderMap.getAll (headers : HeaderMap) (name : String) : List (List UInt8) :=
  (headers.filter fun h => h.1 = name).map (·.2)

/-- `HeaderValue::to_str` fails unless all bytes are visible ASCII or tabs. -/
def isVisibleAscii (b : UInt8) : Bool := (32 ≤ b && b < 127) || b = 9

def toStr (value : List UInt8) : Option (List Char) :=
  if value.all isVisibleAscii then some (value.map fun b => Char.ofNat b.toNat) else none

def resolveClientIp (peer : IpAddr) (headers : HeaderMap) (trustProxy : Bool) : IpAddr :=
  let forwarded := ((headers.get "x-forwarded-for").bind toStr).bind fun xff =>
    parseIpAddr (trim (xff.takeWhile (· ≠ ',')))
  let real := ((headers.get "x-real-ip").bind toStr).bind fun xrip => parseIpAddr (trim xrip)
  if trustProxy then (forwarded.or real).getD peer else peer

/-! ### The proxy -/

/-- `$proxy_add_x_forwarded_for` for a peer with this text. -/
def proxyAddXForwardedFor (values : List (List UInt8)) (remoteAddr : List UInt8) : List UInt8 :=
  values.flatMap (· ++ [44, 32]) ++ remoteAddr

/-- What the proxy makes of the headers of its peer. -/
def proxied (remoteAddr : List UInt8) (headers : HeaderMap) : HeaderMap :=
  ("x-forwarded-for", proxyAddXForwardedFor (headers.getAll "x-forwarded-for") remoteAddr) ::
    ("x-real-ip", remoteAddr) ::
      headers.filter fun h => h.1 ≠ "x-forwarded-for" ∧ h.1 ≠ "x-real-ip"

/-- The address that the client's own `X-Forwarded-For` names first. -/
def claimedIp (headers : HeaderMap) : Option IpAddr :=
  match headers.getAll "x-forwarded-for" with
  | [] => none
  | value :: values =>
    if (value :: values).all (·.all isVisibleAscii) then
      parseIpAddr (trim ((value.map fun b => Char.ofNat b.toNat).takeWhile (· ≠ ',')))
    else none

/-! ### The characters of an address -/

/-- The characters that occur in the text of an address. -/
def isIpChar (c : Char) : Bool := (toDigit 16 c).isSome || c = '.' || c = ':'

theorem toDigit_mono {c : Char} (h : (toDigit 10 c).isSome = true) : (toDigit 16 c).isSome = true := by
  simp only [toDigit, Option.isSome_filter, Option.any_eq_true] at h ⊢
  obtain ⟨d, hd, hlt⟩ := h
  rw [decide_eq_true_eq] at hlt
  exact ⟨d, hd, decide_eq_true (by omega)⟩

theorem eats_readNumber {radix maxDigits bound : ℕ} {allowZeroPrefix : Bool}
    (hradix : ∀ c, (toDigit radix c).isSome = true → isIpChar c = true) :
    Reader.Eats isIpChar (readNumber radix maxDigits allowZeroPrefix bound) := by
  intro s x rest h
  simp only [readNumber] at h
  split at h
  · cases h
  · split at h
    · cases h
    · split at h <;> cases h
      refine ⟨_, (List.takeWhile_append_dropWhile).symm, fun c hc => hradix c ?_⟩
      exact List.mem_takeWhile_imp (p := fun c => (toDigit radix c).isSome) hc

theorem eats_octet : Reader.Eats isIpChar (readNumber 10 3 false 256) :=
  eats_readNumber fun c h => by simp [isIpChar, toDigit_mono h]

theorem eats_group : Reader.Eats isIpChar (readNumber 16 4 true 65536) :=
  eats_readNumber fun c h => by simp [isIpChar, h]

theorem eats_readSeparator {α : Type} {sep : Char} {first : Bool} {inner : Reader α}
    (hsep : isIpChar sep = true) (h : Reader.Eats isIpChar inner) :
    Reader.Eats isIpChar (readSeparator sep first inner) := by
  unfold readSeparator
  split
  · exact h
  · exact (Reader.Eats.char hsep).andThen fun _ => h

theorem eats_readIpv4Addr : Reader.Eats isIpChar readIpv4Addr := by
  have octet : ∀ first, Reader.Eats isIpChar (readSeparator '.' first (readNumber 10 3 false 256)) :=
    fun first => eats_readSeparator (by decide) eats_octet
  unfold readIpv4Addr
  exact (octet true).andThen fun a => (octet false).andThen fun b => (octet false).andThen fun c =>
    (octet false).andThen fun d => Reader.eats_pure _

theorem eats_readGroups (first : Bool) (left : ℕ) :
    Reader.Eats isIpChar fun s => some (readGroups first left s) := by
  induction left generalizing first with
  | zero =>
    rintro s x rest h
    cases h
    exact ⟨[], rfl, nofun⟩
  | succ left ih =>
    intro s x rest h
    simp only [readGroups, Option.some.injEq] at h
    split at h
    · rename_i v4 s' hv4
      cases h
      split at hv4
      · exact eats_readSeparator (by decide) eats_readIpv4Addr _ _ _ hv4
      · cases hv4
    · split at h
      · rename_i group s' hgroup
        obtain ⟨pre, rfl, hpre⟩ := eats_readSeparator (by decide) eats_group _ _ _ hgroup
        obtain ⟨post, hs', hpost⟩ := ih false s' _ _ rfl
        cases h
        refine ⟨pre ++ post, by rw [List.append_assoc, ← hs'], fun c hc => ?_⟩
        exact (List.mem_append.mp hc).elim (hpre c) (hpost c)
      · cases h
        exact ⟨[], rfl, nofun⟩

theorem eats_readIpv6Addr : Reader.Eats isIpChar readIpv6Addr := by
  have colon : Reader.Eats isIpChar (Reader.char ':') := Reader.Eats.char (by decide)
  refine (eats_readGroups true 8).andThen fun head => ?_
  split
  · exact Reader.eats_pure _
  · split
    · intro s x rest h
      cases h
    · exact colon.andThen fun _ => colon.andThen fun _ =>
        (eats_readGroups true _).andThen fun tail => Reader.eats_pure _

theorem eats_readIpAddr : Reader.Eats isIpChar readIpAddr := by
  intro s x rest h
  simp only [readIpAddr] at h
  split at h
  · rename_i v4 s' hv4
    cases h
    exact eats_readIpv4Addr _ _ _ hv4
  · obtain ⟨⟨v6, s'⟩, hv6, he⟩ := Option.map_eq_some_iff.mp h
    cases he
    exact eats_readIpv6Addr _ _ _ hv6

theorem isIpChar_range {c : Char} (h : isIpChar c = true) : 46 ≤ c.toNat ∧ c.toNat ≤ 102 := by
  simp only [isIpChar, Bool.or_eq_true, decide_eq_true_eq] at h
  rcases h with (h | rfl) | rfl
  · simp only [toDigit, Option.isSome_filter, Option.any_eq_true] at h
    obtain ⟨d, hd, hlt⟩ := h
    rw [decide_eq_true_eq] at hlt
    split at hd
    · omega
    · split at hd
      · cases hd
        omega
      · split at hd
        · omega
        · cases hd
  · decide
  · decide

/-- The text of an address has no comma and no white space. -/
theorem parseIpAddr_chars {s : List Char} {ip : IpAddr} (h : parseIpAddr s = some ip) :
    ∀ c ∈ s, c ≠ ',' ∧ isWhitespace c = false := by
  intro c hc
  obtain ⟨hlow, hhigh⟩ := isIpChar_range (eats_readIpAddr.parse h c hc)
  refine ⟨?_, ?_⟩
  · rintro rfl
    exact absurd hlow (by decide)
  · simp only [isWhitespace, Bool.or_eq_false_iff, Bool.and_eq_false_iff, decide_eq_false_iff_not]
    omega

/-! ### Behind the proxy -/

theorem trim_of_none {s : List Char} (h : ∀ c ∈ s, isWhitespace c = false) : trim s = s := by
  unfold trim
  rw [List.dropWhile_eq_self_iff.mpr, List.rdropWhile_eq_self_iff.mpr]
  · intro hs
    rw [h _ (List.getLast_mem hs)]
    exact Bool.false_ne_true
  · intro hs
    rw [h _ (List.getElem_mem hs)]
    exact Bool.false_ne_true

/-- What stands before the first comma. -/
theorem takeWhile_comma (l r : List Char) :
    (l ++ ',' :: r).takeWhile (· ≠ ',') = l.takeWhile (· ≠ ',') := by
  induction l with
  | nil => rfl
  | cons c l ih =>
    rw [List.cons_append, List.takeWhile_cons, List.takeWhile_cons, ih]

theorem toStr_of_all {value : List UInt8} (h : value.all isVisibleAscii = true) :
    toStr value = some (value.map fun b => Char.ofNat b.toNat) := if_pos h

theorem toStr_of_not {value : List UInt8} (h : ¬ value.all isVisibleAscii = true) :
    toStr value = none := if_neg h

/-- The client's values are visible exactly when what the proxy repeats of them is. -/
theorem values_visible (values : List (List UInt8)) :
    (values.flatMap (· ++ [44, 32])).all isVisibleAscii = values.all (·.all isVisibleAscii) := by
  induction values with
  | nil => rfl
  | cons value values ih =>
    have hsep : ([44, 32] : List UInt8).all isVisibleAscii = true := by decide
    rw [List.flatMap_cons, List.all_append, List.all_append, hsep, Bool.and_true, ih, List.all_cons]

/-- Behind the proxy the client's first entry decides, if it is an address. -/
theorem resolve_proxied {remoteAddr : List UInt8} {a : IpAddr}
    (ha : (toStr remoteAddr).bind parseIpAddr = some a) (peer : IpAddr) (headers : HeaderMap) :
    resolveClientIp peer (proxied remoteAddr headers) true = (claimedIp headers).getD a := by
  obtain ⟨s, hs, hparse⟩ := Option.bind_eq_some_iff.mp ha
  have hchars := parseIpAddr_chars hparse
  have htrim : trim s = s := trim_of_none fun c hc => (hchars c hc).2
  have hvisible : remoteAddr.all isVisibleAscii = true := by
    by_contra hno
    rw [toStr_of_not hno] at hs
    cases hs
  have hreal : ((HeaderMap.get (proxied remoteAddr headers) "x-real-ip").bind toStr).bind
      (fun xrip => parseIpAddr (trim xrip)) = some a := by
    have hget : HeaderMap.get (proxied remoteAddr headers) "x-real-ip" = some remoteAddr := rfl
    rw [hget, Option.bind_some, hs, Option.bind_some, htrim, hparse]
  have hget : HeaderMap.get (proxied remoteAddr headers) "x-forwarded-for" =
      some (proxyAddXForwardedFor (headers.getAll "x-forwarded-for") remoteAddr) := rfl
  rw [resolveClientIp, hreal, hget, Option.bind_some, if_pos rfl, claimedIp]
  cases headers.getAll "x-forwarded-for" with
  | nil =>
    -- what the client did not send the proxy makes up, and that is the address itself
    have hfirst : s.takeWhile (· ≠ ',') = s :=
      List.takeWhile_eq_self_iff.mpr fun c hc => decide_eq_true (hchars c hc).1
    rw [proxyAddXForwardedFor, List.flatMap_nil, List.nil_append, hs, Option.bind_some, hfirst, htrim,
      hparse]
    rfl
  | cons value values =>
    have hall := values_visible (value :: values)
    dsimp only
    by_cases hclient : (value :: values).all (·.all isVisibleAscii) = true
    · have hwhole : (proxyAddXForwardedFor (value :: values) remoteAddr).all isVisibleAscii = true := by
        rw [proxyAddXForwardedFor, List.all_append, hall, hclient, hvisible]
        rfl
      rw [if_pos hclient, toStr_of_all hwhole, Option.bind_some, proxyAddXForwardedFor,
        List.flatMap_cons, List.append_assoc, List.append_assoc, List.map_append]
      have hcomma : ∀ rest : List UInt8, ([44, 32] ++ rest).map (fun b : UInt8 => Char.ofNat b.toNat) =
          ',' :: ' ' :: rest.map fun b => Char.ofNat b.toNat := fun _ => rfl
      rw [hcomma, takeWhile_comma]
      cases parseIpAddr (trim ((value.map fun b => Char.ofNat b.toNat).takeWhile (· ≠ ','))) <;> rfl
    · have hwhole : ¬ (proxyAddXForwardedFor (value :: values) remoteAddr).all isVisibleAscii = true := by
        rw [proxyAddXForwardedFor, List.all_append, hall, Bool.and_eq_true]
        exact fun h => hclient h.1
      rw [if_neg hclient, toStr_of_not hwhole]
      rfl

/-- Behind the proxy the address is that of the peer of the proxy exactly when the client's own header
    does not name another one first; then the limiter charges that peer. -/
theorem client_ip {remoteAddr : List UInt8} {a : IpAddr}
    (ha : (toStr remoteAddr).bind parseIpAddr = some a) (peer : IpAddr) (headers : HeaderMap) :
    (resolveClientIp peer (proxied remoteAddr headers) true = a ↔
        ∀ b, claimedIp headers = some b → b = a) ∧
      ((∀ b, claimedIp headers = some b → b = a) → ∀ (w : World E) order query,
        Handshake.ipAdmission order w
            (Session.arrive (resolveClientIp peer (proxied remoteAddr headers) true) query) =
          Handshake.ipAdmission order w (Session.arrive a query)) := by
  have hiff : resolveClientIp peer (proxied remoteAddr headers) true = a ↔
      ∀ b, claimedIp headers = some b → b = a := by
    rw [resolve_proxied ha]
    cases claimedIp headers <;> simp
  exact ⟨hiff, fun h w order query => by rw [hiff.mpr h]⟩

/-- The bytes of a text. -/
def ascii (s : String) : List UInt8 := s.toList.map fun c => UInt8.ofNat c.toNat

theorem client_ip_plain : resolveClientIp (.v4 0x7f000001)
    (proxied (ascii "203.0.113.9") [("x-forwarded-for", ascii "unknown")]) true =
      .v4 0xcb007109 := by
  have hnone : claimedIp [("x-forwarded-for", ascii "unknown")] = none := by decide +kernel
  have haddr : (toStr (ascii "203.0.113.9")).bind parseIpAddr = some (.v4 0xcb007109) := by
    decide +kernel
  refine (client_ip (E := Ext.plain) haddr _ _).1.mpr ?_
  rw [hnone]
  nofun

/-- A client that names an address is taken for it. -/
theorem client_ip_forged : ¬ ∀ (remoteAddr : List UInt8) (a peer : IpAddr) (headers : HeaderMap),
    (toStr remoteAddr).bind parseIpAddr = some a →
      resolveClientIp peer (proxied remoteAddr headers) true = a := by
  intro hall
  have h := hall (ascii "203.0.113.9") (.v4 0xcb007109) (.v4 0x7f000001)
    [("x-forwarded-for", ascii "10.0.0.1")] (by decide +kernel)
  revert h
  decide +kernel

example : parseIpAddr "::ffff:1.2.3.4".toList = some (.v6 0xffff01020304#128) := by decide +kernel

example : parseIpAddr "1.2.3.04".toList = none := by decide +kernel

end WsServer
