import WsServer.Config

/-! The wire events (`protocol.rs`), the JWT vocabulary of `auth.rs`, and what the code takes from
    crates that are not part of it: `f64` arithmetic, `rmp_serde`, `serde_json`, `jsonwebtoken`, and the
    size of what `tokio` allocates. Those are the fields of `Ext`; nothing is assumed of them here. -/

namespace WsServer

/-- What a client may send; `Value` is a JSON value. -/
inductive ClientEvent (Value : Type) where
  | publish (topic requestId : Option String) (payload : Value)
  | direct («to» : String) (requestId : Option String) (payload : Value)
  | ping (requestId : Option String) (payload : Option Value)

/-- What the server sends. The field `from` of the source is `sender` here. -/
inductive ServerEvent (Value : Type) where
  | ready (topic clientId : String)
  | message (topic sender : String) (requestId : Option String) (payload : Value)
  | directMessage (sender «to» : String) (requestId : Option String) (payload : Value)
  | pong (requestId : Option String) (payload : Option Value)
  | error (code message : String)
  deriving DecidableEq

/-- The signature algorithms the code names. -/
inductive Algorithm where | hs256 | rs256 | edDSA
  deriving DecidableEq

/-- The claims of a token that `decode::<Claims>` reads. -/
structure Claims where
  sub : String
  tenantId : Option String
  exp : ℤ
  iss : Option String

/-- The settings of a `jsonwebtoken::Validation` that bear on the code. -/
structure Validation where
  algorithm : Algorithm
  requiredSpecClaims : List String
  validateExp : Bool
  validateAud : Bool
  iss : Option (List String)
  aud : Option (List String)

/-- `Validation::new`. -/
def Validation.new (algorithm : Algorithm) : Validation :=
  { algorithm := algorithm, requiredSpecClaims := ["exp"], validateExp := true, validateAud := true,
    iss := none, aud := none }

/-- The kinds of `jsonwebtoken` errors that `verify` tells apart. -/
inductive ErrorKind where | expiredSignature | invalidIssuer | other

/-- The `f64` operations of the token buckets. -/
class F64 (F : Type) extends One F, Add F, Sub F, Mul F, Min F, Max F, LE F where
  /-- `as f64` -/
  ofU32 : UInt32 → F
  /-- `Duration::as_secs_f64` of a duration in nanoseconds -/
  asSecs : ℕ → F
  decLe : DecidableLE F

instance F64.decidableLE {F : Type} [F64 F] : DecidableLE F := F64.decLe

/-- The types and functions of other crates. -/
structure Ext where
  F : Type
  f64 : F64 F
  /-- `serde_json::Value` -/
  Value : Type
  /-- `bytes::Bytes`, an encoded event -/
  Bytes : Type
  /-- what `broadcast::channel` allocates for a message, in bytes -/
  slotSize : ℕ
  /-- `jsonwebtoken::DecodingKey` -/
  DecodingKey : Type
  /-- `rmp_serde::to_vec_named` -/
  toVecNamed : ServerEvent Value → Option Bytes
  /-- `serde_json::from_str` -/
  fromStr : String → Option (ClientEvent Value)
  /-- `rmp_serde::from_slice` -/
  fromSlice : List UInt8 → Option (ClientEvent Value)
  fromSecret : String → DecodingKey
  fromRsaPem : String → Option DecodingKey
  fromEcPem : String → Option DecodingKey
  fromEdPem : String → Option DecodingKey
  /-- `jsonwebtoken::decode` at a point in time -/
  decode : ℕ → String → DecodingKey → Validation → Except ErrorKind Claims

instance (E : Ext) : F64 E.F := E.f64

section
variable {E : Ext}

def parseClientEventText (raw : String) : Option (ClientEvent E.Value) := E.fromStr raw

def parseClientEventBinary (raw : List UInt8) : Option (ClientEvent E.Value) := E.fromSlice raw

def encodeServerEvent (event : ServerEvent E.Value) : Option E.Bytes := E.toVecNamed event

end

/-- The source address of a request. -/
inductive IpAddr where
  | v4 (bits : UInt32)
  | v6 (bits : BitVec 128)
  deriving DecidableEq

end WsServer
