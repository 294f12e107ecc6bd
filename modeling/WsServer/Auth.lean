import Mathlib.Data.List.Infix
import WsServer.Externals

/-! Token verification (`auth.rs`). The key parsers and `decode` are those of `jsonwebtoken`; each
    parser may fail on a given string. -/

namespace WsServer

structure AuthIdentity where
  clientId : String
  tenantId : String
  deriving DecidableEq

inductive Decoding (E : Ext) where
  | hmac (key : E.DecodingKey)
  | asymmetric (key : E.DecodingKey) (algorithm : Algorithm)

structure AuthVerifier (E : Ext) where
  decoding : Decoding E
  issuer : Option String

inductive AuthError where | invalid | expired | issuerMismatch
  deriving DecidableEq

/-- The `Display` of `AuthError`. -/
def AuthError.text : AuthError → String
  | .invalid => "invalid token"
  | .expired => "token expired"
  | .issuerMismatch => "token issuer mismatch"

/-- `str::contains` -/
def strContains (s sub : String) : Bool := decide (sub.toList <:+: s.toList)

/-- The first of the three parsers that accepts the PEM. -/
def parsePem (E : Ext) (pem : String) : Option E.DecodingKey :=
  (E.fromRsaPem pem).or ((E.fromEcPem pem).or (E.fromEdPem pem))

namespace AuthVerifier

variable {E : Ext}

def fromConfig (config : Config) : Option (AuthVerifier E) :=
  match config.jwtSecret with
  | some secret =>
    some { decoding := .hmac (E.fromSecret secret), issuer := config.jwtIssuer }
  | none =>
    match config.jwtPublicKey with
    | some pem =>
      let algorithm :=
        if strContains pem "ED25519" || strContains pem "Ed25519" then .edDSA else .rs256
      (parsePem E pem).map fun key =>
        { decoding := .asymmetric key algorithm, issuer := config.jwtIssuer }
    | none => none

def decodingKey (v : AuthVerifier E) : E.DecodingKey :=
  match v.decoding with
  | .hmac key => key
  | .asymmetric key _ => key

/-- The `Validation` that `verify` builds. -/
def validation (v : AuthVerifier E) : Validation :=
  let validation :=
    match v.decoding with
    | .hmac _ => Validation.new .hs256
    | .asymmetric _ algo => Validation.new algo
  let validation :=
    match v.issuer with
    | some iss => { validation with iss := some [iss] }
    | none => validation
  { validation with validateExp := true }

def verify (v : AuthVerifier E) (now : ℕ) (token : String) : Except AuthError AuthIdentity :=
  match E.decode now token v.decodingKey v.validation with
  | .ok claims => .ok { clientId := claims.sub, tenantId := claims.tenantId.getD "default" }
  | .error .expiredSignature => .error .expired
  | .error .invalidIssuer => .error .issuerMismatch
  | .error .other => .error .invalid

/-- A verified token decoded under the verifier's key, and its claims are the identity. -/
theorem verify_ok {v : AuthVerifier E} {now : ℕ} {token : String} {id : AuthIdentity}
    (h : v.verify now token = .ok id) :
    ∃ claims, E.decode now token v.decodingKey v.validation = .ok claims ∧
      id = { clientId := claims.sub, tenantId := claims.tenantId.getD "default" } := by
  unfold verify at h
  split at h
  · rename_i claims hd
    exact ⟨claims, hd, (Except.ok.inj h).symm⟩
  · cases h
  · cases h
  · cases h

/-- A verifier exists exactly when a secret is set, or a public key that one of the parsers
    accepts. -/
theorem fromConfig_isSome (config : Config) : (fromConfig (E := E) config).isSome = true ↔
    config.jwtSecret.isSome = true ∨
      ∃ pem, config.jwtPublicKey = some pem ∧ (parsePem E pem).isSome = true := by
  unfold fromConfig
  cases config.jwtSecret with
  | some secret => simp
  | none => cases config.jwtPublicKey <;> simp

end AuthVerifier

end WsServer
