import WsServer.Lib.MessagePack
import WsServer.Lib.Stream

/-! `decodeMsgpack` of the web client (`examples/web-client/index.html`), the reader of what the server
    writes. A JavaScript number that the decoder makes is a whole `f64`, here the integer it stands for.
    `offset` is what is left of the bytes. The decoder accepts exactly the encodings of the well-formed
    messages whose items it supports, and reads each as `Msg.build` says. -/

namespace WsServer

open Lib

/-! ### Values of the client -/

mutual

/-- A JavaScript value. An object keeps its prototype and its own properties, in the order in which
    JavaScript lists them. -/
inductive JsValue where
  | null
  | bool (b : Bool)
  | number (n : ℤ)
  | string (s : String)
  | array (items : List JsValue)
  | object (proto : Proto) (own : List (String × JsValue))

/-- What an object inherits from: `Object.prototype`, nothing, or the array or object that was assigned to
    its `__proto__`. -/
inductive Proto where
  | base
  | null
  | array (items : List JsValue)
  | object (proto : Proto) (own : List (String × JsValue))

end

/-- An object being filled. -/
abbrev JsObject := Proto × List (String × JsValue)

/-- What the decoder takes from the browser: `TextDecoder`, the conversion of a key that is no string,
    and how deep calls may nest before a `RangeError`. -/
structure Browser where
  textDecode : List UInt8 → String
  toPropertyKey : JsValue → Except String String
  stack : ℕ

inductive DecodeError where
  | incomplete
  | unsupported (marker : ℕ)
  | trailing
  | key (error : String)
  | stackOverflow
  deriving DecidableEq

/-- `Number.prototype.toString(16)` of a byte from 0x80 on. -/
def hexByte (n : ℕ) : String :=
  String.ofList [(Nat.digitChar (n / 16)), (Nat.digitChar (n % 16))]

/-- The text of an error. -/
def DecodeError.message : DecodeError → String
  | .incomplete => "MessagePack 数据不完整"
  | .unsupported marker => "暂不支持的 MessagePack marker: 0x" ++ hexByte marker
  | .trailing => "MessagePack 数据尾部存在未消费字节"
  | .key error => error
  | .stackOverflow => "Maximum call stack size exceeded"

/-- The number that a key is, when JavaScript lists it among the array indices. -/
def arrayIndex (key : String) : Option ℕ := key.toNat?.filter fun n => n < 2 ^ 32 - 1 && toString n = key

/-- Array indices are listed first and by their size, other keys in the order they were made. -/
def listedBefore (k key : String) : Bool :=
  match arrayIndex key, arrayIndex k with
  | none, _ => true
  | some _, none => false
  | some n, some m => m < n

/-- `obj[key] = value` among the own properties. -/
def setOwn (key : String) (value : JsValue) : List (String × JsValue) → List (String × JsValue)
  | [] => [(key, value)]
  | (k, v) :: rest =>
    if k = key then (k, value) :: rest
    else if listedBefore k key then (k, v) :: setOwn key value rest
    else (key, value) :: (k, v) :: rest

/-- Looking `__proto__` up leads to the setter of `Object.prototype`. An own property of that name hides it,
    here and in everything that inherits from here. -/
def Proto.hasSetter : Proto → Bool
  | .base => true
  | .null => false
  | .array _ => true
  | .object proto own => !own.any (fun e => e.1 = "__proto__") && proto.hasSetter

/-- `obj[key] = value` on an object made by `{}`. The setter of `__proto__` changes the prototype, or does
    nothing when the value is no object. -/
def assign (obj : JsObject) (key : String) (value : JsValue) : JsObject :=
  if key = "__proto__" && (Proto.object obj.1 obj.2).hasSetter then
    match value with
    | .null => (.null, obj.2)
    | .array items => (.array items, obj.2)
    | .object proto own => (.object proto own, obj.2)
    | _ => obj
  else (obj.1, setOwn key value obj.2)

/-- The `f64` next to a natural number, to even on a tie. -/
def roundToF64 (n : ℕ) : ℕ :=
  let ulp := 2 ^ (n.log2 - 52)
  let q := n / ulp
  let r := n % ulp
  (if ulp < 2 * r ∨ (ulp = 2 * r ∧ q % 2 = 1) then q + 1 else q) * ulp

/-! ### The decoder -/

abbrev Decode := Decoder UInt8 DecodeError

/-- `read(length)` with its `ensure` -/
def read (length : ℕ) : Decode (List UInt8) := Decoder.take .incomplete length

def readU8 : Decode ℕ := do
  let byte ← Decoder.next .incomplete
  pure byte.toNat

def readU16 : Decode ℕ := do
  let bytes ← read 2
  let view (i : ℕ) : ℕ := (bytes.getD i 0).toNat
  pure (view 0 <<< 8 ||| view 1)

def readU32 : Decode ℕ := do
  let bytes ← read 4
  let view (i : ℕ) : ℕ := (bytes.getD i 0).toNat
  pure (view 0 * 2 ^ 24 + view 1 <<< 16 + view 2 <<< 8 + view 3)

def readU64 : Decode ℕ := do
  let hi ← readU32
  let lo ← readU32
  pure (roundToF64 (hi * 2 ^ 32 + lo))

def readI8 : Decode ℤ := do
  let value ← readU8
  pure (if 0x7f < value then (value : ℤ) - 0x100 else value)

def readI16 : Decode ℤ := do
  let value ← readU16
  pure (if 0x7fff < value then (value : ℤ) - 0x10000 else value)

/-- `| 0` reads the number as a signed one of 32 bits. -/
def readI32 : Decode ℤ := do
  let value ← readU32
  pure (if 2 ^ 31 ≤ value then (value : ℤ) - 2 ^ 32 else value)

variable (js : Browser)

def readString (length : ℕ) : Decode JsValue := do
  let bytes ← read length
  pure (.string (js.textDecode bytes))

section
variable (decodeValue : Decode JsValue)

def decodeItems : ℕ → Decode (List JsValue)
  | 0 => pure []
  | length + 1 => do
    let value ← decodeValue
    let rest ← decodeItems length
    pure (value :: rest)

def decodeArray (length : ℕ) : Decode JsValue := do
  let items ← decodeItems decodeValue length
  pure (.array items)

def decodeEntries : ℕ → JsObject → Decode JsValue
  | 0, obj => pure (.object obj.1 obj.2)
  | length + 1, obj => do
    let key ← decodeValue
    let value ← decodeValue
    match js.toPropertyKey key with
    | .ok name => decodeEntries length (assign obj name value)
    | .error e => Decoder.fail (.key e)

def decodeMap (length : ℕ) : Decode JsValue := decodeEntries js decodeValue length (.base, [])

end

/-- The `switch` of `decodeValue` -/
def decodeSwitch (decodeValue : Decode JsValue) : ℕ → Decode JsValue
  | 0xc0 => pure .null
  | 0xc2 => pure (.bool false)
  | 0xc3 => pure (.bool true)
  | 0xcc => do let n ← readU8; pure (.number n)
  | 0xcd => do let n ← readU16; pure (.number n)
  | 0xce => do let n ← readU32; pure (.number n)
  | 0xcf => do let n ← readU64; pure (.number n)
  | 0xd0 => do let n ← readI8; pure (.number n)
  | 0xd1 => do let n ← readI16; pure (.number n)
  | 0xd2 => do let n ← readI32; pure (.number n)
  | 0xd9 => do readString js (← readU8)
  | 0xda => do readString js (← readU16)
  | 0xdb => do readString js (← readU32)
  | 0xdc => do decodeArray decodeValue (← readU16)
  | 0xdd => do decodeArray decodeValue (← readU32)
  | 0xde => do decodeMap js decodeValue (← readU16)
  | 0xdf => do decodeMap js decodeValue (← readU32)
  | marker => Decoder.fail (.unsupported marker)

/-- `decodeValue` past its marker -/
def decodeMarker (decodeValue : Decode JsValue) (marker : ℕ) : Decode JsValue :=
  if marker ≤ 0x7f then pure (.number marker)
  else if 0xe0 ≤ marker then pure (.number ((marker : ℤ) - 0x100))
  else if 0xa0 ≤ marker ∧ marker ≤ 0xbf then readString js (marker &&& 0x1f)
  else if 0x90 ≤ marker ∧ marker ≤ 0x9f then decodeArray decodeValue (marker &&& 0x0f)
  else if 0x80 ≤ marker ∧ marker ≤ 0x8f then decodeMap js decodeValue (marker &&& 0x0f)
  else decodeSwitch js decodeValue marker

/-- `decodeValue`, with room for `n` nested calls -/
def decodeValue : ℕ → Decode JsValue
  | 0 => Decoder.fail .stackOverflow
  | n + 1 => do
    let marker ← readU8
    decodeMarker js (decodeValue n) marker

def decodeMsgpack (bytes : List UInt8) : Except DecodeError JsValue :=
  (decodeValue js js.stack).whole .trailing bytes

/-! ### What the readers take -/

theorem takes_u8 : Takes .incomplete 1 readU8 fromBytes := by
  refine ((Takes.next (fun xs : List UInt8 => xs.headD 0) fun _ => rfl).map UInt8.toNat).congr ?_
  intro xs h
  obtain ⟨b, rfl⟩ := List.length_eq_one_iff.mp h
  simp [fromBytes]

theorem takes_u16 : Takes .incomplete 2 readU16 fromBytes := by
  refine ((Takes.take 2).map _).congr ?_
  intro xs h
  obtain ⟨a, b, rfl⟩ := List.length_eq_two.mp h
  have hb : b.toNat < 2 ^ 8 := b.toNat_lt
  simp [fromBytes, Nat.shiftLeft_eq, ← Nat.two_pow_add_eq_or_of_lt hb a.toNat, Nat.mul_comm]

theorem takes_u32 : Takes .incomplete 4 readU32 fromBytes := by
  refine ((Takes.take 4).map _).congr ?_
  intro xs h
  match xs, h with
  | [a, b, c, d], _ => simp [fromBytes, Nat.shiftLeft_eq, Nat.add_assoc]

theorem takes_u64 : Takes .incomplete 8 readU64 fun xs => roundToF64 (fromBytes xs) := by
  refine (takes_u32.both takes_u32 fun hi lo => roundToF64 (hi * 2 ^ 32 + lo)).congr ?_
  intro xs h
  have hsplit := fromBytes_append (xs.take 4) (xs.drop 4)
  have hpow : 256 ^ (4 + 4 - 4) = 2 ^ 32 := by decide
  rw [List.take_append_drop, List.length_drop, h, hpow] at hsplit
  rw [hsplit]

end WsServer
