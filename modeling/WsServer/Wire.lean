import WsServer.Decoding
import WsServer.Externals

/-! From the server's events to what the web client shows. An event is written by
    `rmp_serde::to_vec_named` as the map of its fields with the tag `kind` first (`protocol.rs`); `Json`
    is the `serde_json::Value` of a payload. The client reads an event exactly when no number in it is a
    fraction or below `-2^31`, and shows it as it is exactly when moreover no string begins with a byte
    order mark, no key is `__proto__` and every number is an `f64`. -/

namespace WsServer

open Lib

/-! ### Events as they are written -/

/-- A `serde_json::Value`; a fraction is kept by its bits. -/
inductive Json where
  | null
  | bool (b : Bool)
  | int (n : ℤ) (fits : -(2 ^ 63) ≤ n ∧ n < 2 ^ 64)
  | float (bits : UInt64)
  | str (s : String)
  | array (items : List Json)
  | object (members : List (String × Json))

/-- `str::as_bytes` -/
def utf8 (s : String) : List UInt8 := s.toByteArray.data.toList

/-- `serialize_str` -/
def strMsg (s : String) : Msg := .str (StrForm.smallest (utf8 s).length) (utf8 s)

namespace Json

mutual

/-- How `rmp_serde` writes a value: everything in its smallest form. -/
def msg : Json → Msg
  | .null => .nil
  | .bool b => .bool b
  | .int n _ => .int (IntForm.smallest n) n
  | .float bits => .float64 (bigEndian 8 bits.toNat)
  | .str s => strMsg s
  | .array items => .array (SeqForm.smallest items.length) (msgs items)
  | .object members => .map (SeqForm.smallest members.length) (entries members)

def msgs : List Json → List Msg
  | [] => []
  | x :: xs => x.msg :: msgs xs

def entries : List (String × Json) → List (Msg × Msg)
  | [] => []
  | (k, v) :: rest => (strMsg k, v.msg) :: entries rest

end

mutual

/-- What every `serde_json::Value` in memory satisfies: lengths of 32 bits, and keys that differ. -/
def Valid : Json → Prop
  | .str s => (utf8 s).length < 2 ^ 32
  | .array items => items.length < 2 ^ 32 ∧ AllValid items
  | .object members =>
    members.length < 2 ^ 32 ∧ (members.map Prod.fst).Nodup ∧ MembersValid members
  | _ => True

def AllValid : List Json → Prop
  | [] => True
  | x :: xs => x.Valid ∧ AllValid xs

def MembersValid : List (String × Json) → Prop
  | [] => True
  | (k, v) :: rest => (utf8 k).length < 2 ^ 32 ∧ v.Valid ∧ MembersValid rest

end

mutual

/-- No number is a fraction or below `-2^31`. -/
def Supported : Json → Prop
  | .int n _ => -(2 ^ 31) ≤ n
  | .float _ => False
  | .array items => AllSupported items
  | .object members => MembersSupported members
  | _ => True

def AllSupported : List Json → Prop
  | [] => True
  | x :: xs => x.Supported ∧ AllSupported xs

def MembersSupported : List (String × Json) → Prop
  | [] => True
  | (_, v) :: rest => v.Supported ∧ MembersSupported rest

end

mutual

/-- The client shows the value itself. In what order an object has its members is no part of it. -/
def Is : Json → JsValue → Prop
  | .null, .null => True
  | .bool b, .bool b' => b' = b
  | .int n _, .number m => m = n
  | .str s, .string t => t = s
  | .array items, .array values => AllAre items values
  | .object members, .object proto own =>
    proto = .base ∧ ∃ own', own.Perm own' ∧ MembersAre members own'
  | _, _ => False

def AllAre : List Json → List JsValue → Prop
  | [], [] => True
  | x :: xs, v :: vs => x.Is v ∧ AllAre xs vs
  | _, _ => False

def MembersAre : List (String × Json) → List (String × JsValue) → Prop
  | [], [] => True
  | (k, x) :: rest, (k', v) :: own => k' = k ∧ x.Is v ∧ MembersAre rest own
  | _, _ => False

end

/-- The text begins with U+FEFF. -/
def hasBom (s : String) : Bool := s.toList.head? = some (Char.ofNat 0xFEFF)

mutual

/-- Nothing in the value is read as something else. -/
def Faithful : Json → Prop
  | .int n _ => -(2 ^ 31) ≤ n ∧ roundToF64 n.toNat = n.toNat
  | .float _ => False
  | .str s => hasBom s = false
  | .array items => AllFaithful items
  | .object members => MembersFaithful members
  | _ => True

def AllFaithful : List Json → Prop
  | [] => True
  | x :: xs => x.Faithful ∧ AllFaithful xs

def MembersFaithful : List (String × Json) → Prop
  | [] => True
  | (k, v) :: rest => hasBom k = false ∧ k ≠ "__proto__" ∧ v.Faithful ∧ MembersFaithful rest

end

end Json

section
variable {Value : Type} (value : Value → Json)

/-- The map that `to_vec_named` makes of an event whose payload `value` reads. -/
def ServerEvent.json : ServerEvent Value → Json
  | .ready topic clientId =>
    .object [("kind", .str "ready"), ("topic", .str topic), ("client_id", .str clientId)]
  | .message topic sender requestId payload =>
    .object [("kind", .str "message"), ("topic", .str topic), ("from", .str sender),
      ("request_id", (requestId.map Json.str).getD .null), ("payload", value payload)]
  | .directMessage sender target requestId payload =>
    .object [("kind", .str "direct_message"), ("from", .str sender), ("to", .str target),
      ("request_id", (requestId.map Json.str).getD .null), ("payload", value payload)]
  | .pong requestId payload =>
    .object [("kind", .str "pong"), ("request_id", (requestId.map Json.str).getD .null),
      ("payload", (payload.map value).getD .null)]
  | .error code text =>
    .object [("kind", .str "error"), ("code", .str code), ("message", .str text)]

/-- `rmp_serde::to_vec_named` -/
def rmpToVecNamed (event : ServerEvent Value) : List UInt8 := (event.json value).msg.encode

end

/-- What is documented of the browser: `TextDecoder` reads UTF-8 and takes a byte order mark off, and a
    string is its own property key. -/
structure Browser.Documented (js : Browser) : Prop where
  textDecode : ∀ s : String, js.textDecode (utf8 s) =
    String.ofList (if Json.hasBom s then s.toList.tail else s.toList)
  toPropertyKey : ∀ s : String, js.toPropertyKey (.string s) = .ok s

/-! ### Rounding -/

theorem roundToF64_eq_iff (n : ℕ) : roundToF64 n = n ↔ 2 ^ (n.log2 - 52) ∣ n := by
  have hpos : 0 < 2 ^ (n.log2 - 52) := Nat.two_pow_pos _
  have hdiv := Nat.div_add_mod n (2 ^ (n.log2 - 52))
  have hlt := Nat.mod_lt n hpos
  simp only [roundToF64, Nat.dvd_iff_mod_eq_zero]
  generalize 2 ^ (n.log2 - 52) = ulp at *
  rw [Nat.mul_comm] at hdiv
  split_ifs with hup
  · rw [Nat.add_mul, Nat.one_mul]
    omega
  · omega

/-- Up to `2^53` every integer is an `f64`. -/
theorem roundToF64_of_lt {n : ℕ} (h : n < 2 ^ 53) : roundToF64 n = n := by
  rw [roundToF64_eq_iff]
  have hlog : n.log2 - 52 = 0 := by
    rcases Nat.eq_zero_or_pos n with rfl | hpos
    · rfl
    · have := (Nat.log2_lt (by omega)).mpr h
      omega
  rw [hlog]
  exact Nat.one_dvd n

end WsServer
