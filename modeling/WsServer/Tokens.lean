import Mathlib.Logic.Equiv.List
import Mathlib.Tactic.DeriveEncodable
import WsServer.Server

/-! What `auth.rs` relies on in `jsonwebtoken`, as hypotheses on the functions of `Ext`: each key parser
    takes the PEMs of its family and tags the key with it, and `decode` accepts a token that was signed
    for the key and the algorithm, is not expired, and names no other issuer and no audience. At the end
    a small library of signed tokens that meets them. -/

namespace WsServer

variable {E : Ext}

/-- The families of keys that `jsonwebtoken` keeps apart. -/
inductive KeyFamily where | hmac | rsa | ec | ed
  deriving DecidableEq, Encodable

def Algorithm.family : Algorithm → KeyFamily
  | .hs256 => .hmac
  | .rs256 => .rsa
  | .edDSA => .ed

/-- What PEMs, keys and tokens are about. -/
structure Jwt (E : Ext) where
  /-- the family of the public key in a PEM -/
  holds : String → Option KeyFamily
  /-- the tag of a key -/
  family : E.DecodingKey → KeyFamily
  /-- the token was signed under the algorithm, with the private key that belongs to the key -/
  Signed : E.DecodingKey → Algorithm → String → Prop
  /-- the payload of a token as `Claims`; it is none when `sub` is no string, `exp` no integer, or one of
      the other two neither a string nor missing -/
  claims : String → Option Claims
  /-- the `aud` of a token that has one, a string or several -/
  audience : String → Option (List String)
  /-- Unix time in seconds, by a clock that is past the leeway -/
  time : ℕ → ℤ
  leeway : ℤ

namespace Jwt

/-- `exp` is not past, up to the leeway. -/
def Current (J : Jwt E) (now : ℕ) (c : Claims) : Prop := J.time now ≤ c.exp + J.leeway

/-- The parser takes the PEMs of a family, and tags its keys with it. -/
def Parses (J : Jwt E) (parser : String → Option E.DecodingKey) (family : KeyFamily) : Prop :=
  ∀ pem, ((parser pem).isSome = true ↔ J.holds pem = some family) ∧
    ∀ key, parser pem = some key → J.family key = family

/-- The owner of a private key signs what he likes, under an algorithm of its family. -/
def Signs (J : Jwt E) : Prop :=
  ∀ key algorithm claims audience, J.family key = algorithm.family →
    ∃ token, J.Signed key algorithm token ∧ J.claims token = some claims ∧ J.audience token = audience

/-- `decode` under a validation that requires and checks `exp`, which every `Claims` has: issuer and
    audience are compared only when the token names one, and an audience is refused when none is
    expected. -/
def Decodes (J : Jwt E) : Prop :=
  ∀ now token key (v : Validation) c, v.requiredSpecClaims = ["exp"] → v.validateExp = true →
    (E.decode now token key v = .ok c ↔ J.family key = v.algorithm.family ∧
      J.Signed key v.algorithm token ∧ J.claims token = some c ∧ J.Current now c ∧
        (∀ allowed iss, v.iss = some allowed → c.iss = some iss → iss ∈ allowed) ∧
          (v.validateAud = true → ∀ named, J.audience token = some named →
            ∃ allowed, v.aud = some allowed ∧ ∃ name ∈ named, name ∈ allowed))

/-- What the library is documented to do. -/
structure Documented (J : Jwt E) : Prop where
  rsa : J.Parses E.fromRsaPem .rsa
  ec : J.Parses E.fromEcPem .ec
  ed : J.Parses E.fromEdPem .ed
  signs : J.Signs
  decodes : J.Decodes

end Jwt

namespace AuthVerifier

variable {J : Jwt E} {v : AuthVerifier E} {now : ℕ} {token : String} {identity : AuthIdentity}

/-- The algorithm that `verify` asks for. -/
def algorithm (v : AuthVerifier E) : Algorithm :=
  match v.decoding with
  | .hmac _ => .hs256
  | .asymmetric _ algorithm => algorithm

theorem validation_eq (v : AuthVerifier E) : v.validation =
    { algorithm := v.algorithm, requiredSpecClaims := ["exp"], validateExp := true, validateAud := true,
      iss := v.issuer.map fun iss => [iss], aud := none } := by
  obtain ⟨decoding, issuer⟩ := v
  cases decoding <;> cases issuer <;> rfl

/-- What is in a token that `verify` lets pass. -/
structure Passes (J : Jwt E) (v : AuthVerifier E) (now : ℕ) (token : String) (c : Claims) : Prop where
  family : J.family v.decodingKey = v.algorithm.family
  signed : J.Signed v.decodingKey v.algorithm token
  claims : J.claims token = some c
  current : J.Current now c
  issuer : ∀ x iss, v.issuer = some x → c.iss = some iss → iss = x
  /-- `verify` sets no audience. -/
  audience : J.audience token = none

theorem decode_iff (hdecodes : J.Decodes) {c : Claims} :
    E.decode now token v.decodingKey v.validation = .ok c ↔ Passes J v now token c := by
  rw [hdecodes now token v.decodingKey v.validation c (by rw [validation_eq]) (by rw [validation_eq]),
    validation_eq]
  constructor
  · rintro ⟨hfamily, hsigned, hclaims, hcurrent, hissuer, haudience⟩
    refine ⟨hfamily, hsigned, hclaims, hcurrent, ?_, ?_⟩
    · intro x iss hx hiss
      exact List.mem_singleton.mp (hissuer [x] iss (by rw [hx]; rfl) hiss)
    · rw [Option.eq_none_iff_forall_ne_some]
      intro named hnamed
      obtain ⟨allowed, hallowed, -⟩ := haudience rfl named hnamed
      cases hallowed
  · intro h
    refine ⟨h.family, h.signed, h.claims, h.current, ?_, ?_⟩
    · intro allowed iss hallowed hiss
      obtain ⟨x, hx, rfl⟩ := Option.map_eq_some_iff.mp hallowed
      exact List.mem_singleton.mpr (h.issuer x iss hx hiss)
    · intro _ named hnamed
      cases h.audience.symm.trans hnamed

theorem verify_iff (hdecodes : J.Decodes) : v.verify now token = .ok identity ↔
    ∃ c, Passes J v now token c ∧ identity = ⟨c.sub, c.tenantId.getD "default"⟩ := by
  constructor
  · intro h
    obtain ⟨c, hc, hidentity⟩ := verify_ok h
    exact ⟨c, (decode_iff hdecodes).mp hc, hidentity⟩
  · rintro ⟨c, hc, rfl⟩
    rw [verify, (decode_iff hdecodes).mpr hc]

end AuthVerifier

/-! ### A library of signed tokens -/

instance encodableChar : Encodable Char :=
  Encodable.ofLeftInverse Char.toNat Char.ofNat Char.ofNat_toNat

instance encodableString : Encodable String :=
  Encodable.ofLeftInverse String.toList String.ofList fun s => by simp

deriving instance Encodable for Claims

deriving instance Encodable for Algorithm

/-- A key with the tag of its family. -/
structure TaggedKey where
  family : KeyFamily
  text : String
  deriving DecidableEq, Encodable

/-- Who signed what. -/
structure SignedClaims where
  key : TaggedKey
  algorithm : Algorithm
  claims : Claims
  audience : Option (List String)
  deriving Encodable

/-- A token spells out its signature and its claims as a number. -/
def SignedClaims.token (s : SignedClaims) : String :=
  String.ofList (List.replicate (Encodable.encode s) 'a')

def readToken (token : String) : Option SignedClaims := Encodable.decode token.length

theorem readToken_token (s : SignedClaims) : readToken s.token = some s := by
  rw [readToken, SignedClaims.token, String.length_ofList, List.length_replicate, Encodable.encodek]

/-- The family of a public key, read off the head of its encoding: Ed25519, P-256, RSA of 2048 bits. -/
def pemFamily (pem : String) : Option KeyFamily :=
  if strContains pem "MCowBQYDK2VwAyEA" then some .ed
  else if strContains pem "MFkwEwYHKoZIzj0CAQYIKoZIzj0DAQcDQgAE" then some .ec
  else if strContains pem "MIIBIjANBgkqhkiG9w0BAQEFAAOCAQ8A" then some .rsa
  else none

/-- The parser of a family. -/
def parseTagged (family : KeyFamily) (pem : String) : Option TaggedKey :=
  if pemFamily pem = some family then some ⟨family, pem⟩ else none

/-- `decode` for such tokens, with the leeway of a minute. -/
def decodeSigned (now : ℕ) (token : String) (key : TaggedKey) (v : Validation) :
    Except ErrorKind Claims :=
  match readToken token with
  | none => .error .other
  | some s =>
    if s.key ≠ key ∨ s.algorithm ≠ v.algorithm ∨ key.family ≠ v.algorithm.family then .error .other
    else if v.validateExp ∧ s.claims.exp + 60 < (now / 1000000000 : ℕ) then .error .expiredSignature
    else if (v.iss.any fun allowed => s.claims.iss.any fun iss => decide (iss ∉ allowed)) then
      .error .invalidIssuer
    else if v.validateAud ∧ s.audience.any fun named =>
        !(v.aud.any fun allowed => named.any fun name => decide (name ∈ allowed)) then .error .other
    else .ok s.claims

def Ext.jwt : Ext :=
  { Ext.plain with
    DecodingKey := TaggedKey
    fromSecret := TaggedKey.mk .hmac
    fromRsaPem := parseTagged .rsa
    fromEcPem := parseTagged .ec
    fromEdPem := parseTagged .ed
    decode := decodeSigned }

def Jwt.tagged : Jwt Ext.jwt where
  holds := pemFamily
  family := TaggedKey.family
  Signed key algorithm token := ∃ c aud, readToken token = some ⟨key, algorithm, c, aud⟩
  claims token := (readToken token).map SignedClaims.claims
  audience token := (readToken token).bind SignedClaims.audience
  time now := (now / 1000000000 : ℕ)
  leeway := 60

theorem tagged_parses (family : KeyFamily) : Jwt.tagged.Parses (parseTagged family) family := by
  intro pem
  simp only [parseTagged, Jwt.tagged]
  split
  · rename_i h
    exact ⟨⟨fun _ => h, fun _ => rfl⟩, fun key hkey => by rw [← Option.some.inj hkey]⟩
  · rename_i h
    exact ⟨⟨fun hnone => (Bool.false_ne_true hnone).elim, fun hsome => absurd hsome h⟩,
      fun key hkey => by cases hkey⟩

/-- The checks of `decodeSigned` on a token that is its signature. -/
structure Checks (now : ℕ) (s : SignedClaims) (key : TaggedKey) (v : Validation) : Prop where
  sameKey : s.key = key
  sameAlgorithm : s.algorithm = v.algorithm
  family : key.family = v.algorithm.family
  current : v.validateExp = true → ((now / 1000000000 : ℕ) : ℤ) ≤ s.claims.exp + 60
  issuer : ∀ allowed iss, v.iss = some allowed → s.claims.iss = some iss → iss ∈ allowed
  audience : v.validateAud = true → ∀ named, s.audience = some named →
    ∃ allowed, v.aud = some allowed ∧ ∃ name ∈ named, name ∈ allowed

theorem decodeSigned_ok {now : ℕ} {token : String} {key : TaggedKey} {v : Validation} {c : Claims} :
    decodeSigned now token key v = .ok c ↔
      ∃ s, readToken token = some s ∧ s.claims = c ∧ Checks now s key v := by
  rw [decodeSigned]
  cases hread : readToken token with
  | none => simp
  | some s =>
    simp only [Option.some.injEq, exists_eq_left']
    split
    · rename_i hwrong
      refine iff_of_false (by rintro ⟨⟩) ?_
      rintro ⟨-, h⟩
      rcases hwrong with hkey | halgorithm | hfamily
      · exact hkey h.sameKey
      · exact halgorithm h.sameAlgorithm
      · exact hfamily h.family
    rename_i hright
    simp only [not_or, not_not] at hright
    obtain ⟨hkey, halgorithm, hfamily⟩ := hright
    split
    · rename_i hexpired
      refine iff_of_false (by rintro ⟨⟩) ?_
      rintro ⟨-, h⟩
      have := h.current hexpired.1
      omega
    rename_i hcurrent
    split
    · rename_i hother
      refine iff_of_false (by rintro ⟨⟩) ?_
      rintro ⟨-, h⟩
      obtain ⟨allowed, hallowed, hother⟩ := (Option.any_eq_true _ _).mp hother
      obtain ⟨iss, hiss, hnotin⟩ := (Option.any_eq_true _ _).mp hother
      exact of_decide_eq_true hnotin (h.issuer allowed iss hallowed hiss)
    rename_i hissuer
    split
    · rename_i hothers
      refine iff_of_false (by rintro ⟨⟩) ?_
      rintro ⟨-, h⟩
      obtain ⟨named, hnamed, hnone⟩ := (Option.any_eq_true _ _).mp hothers.2
      obtain ⟨allowed, hallowed, name, hname, hin⟩ := h.audience hothers.1 named hnamed
      simp [hallowed] at hnone
      exact hnone name hname hin
    rename_i haudience
    refine ⟨fun h => ⟨Except.ok.inj h, hkey, halgorithm, hfamily, ?_, ?_, ?_⟩, fun h => congrArg _ h.1⟩
    · -- current
      intro hexp
      simp only [not_and, not_lt] at hcurrent
      exact hcurrent hexp
    · -- issuer
      intro allowed iss hallowed hiss
      by_contra hnotin
      exact hissuer (by simp [hallowed, hiss, hnotin])
    · -- audience
      intro haud named hnamed
      by_contra hnone
      refine haudience ⟨haud, ?_⟩
      rw [hnamed, Option.any_some, Bool.not_eq_true', Bool.eq_false_iff]
      intro hany
      obtain ⟨allowed, hallowed, hany⟩ := (Option.any_eq_true _ _).mp hany
      obtain ⟨name, hname, hin⟩ := List.any_eq_true.mp hany
      exact hnone ⟨allowed, hallowed, name, hname, of_decide_eq_true hin⟩

theorem tagged_decodes : Jwt.tagged.Decodes := by
  intro now token key v c _ hexp
  refine (@decodeSigned_ok now token key v c).trans ?_
  constructor
  · rintro ⟨⟨key', algorithm, c', aud⟩, hread, rfl, h⟩
    obtain ⟨rfl, rfl, hfamily, hcurrent, hissuer, haudience⟩ := h
    refine ⟨hfamily, ⟨_, _, hread⟩, by simp only [Jwt.tagged, hread, Option.map_some],
      hcurrent hexp, hissuer, ?_⟩
    intro haud named hnamed
    exact haudience haud named (by simpa only [Jwt.tagged, hread, Option.bind_some] using hnamed)
  · rintro ⟨hfamily, ⟨c', aud, hread⟩, hclaims, hcurrent, hissuer, haudience⟩
    obtain rfl : c' = c := by simpa only [Jwt.tagged, hread, Option.map_some, Option.some.injEq] using hclaims
    refine ⟨_, hread, rfl, rfl, rfl, hfamily, fun _ => hcurrent, hissuer, ?_⟩
    intro haud named hnamed
    exact haudience haud named (by simpa only [Jwt.tagged, hread, Option.bind_some] using hnamed)

theorem tagged_documented : Jwt.tagged.Documented where
  rsa := tagged_parses .rsa
  ec := tagged_parses .ec
  ed := tagged_parses .ed
  signs key algorithm claims audience _ := by
    refine ⟨SignedClaims.token ⟨key, algorithm, claims, audience⟩,
      ⟨claims, audience, readToken_token _⟩, ?_, ?_⟩
    · simp only [Jwt.tagged, readToken_token, Option.map_some]
    · simp only [Jwt.tagged, readToken_token, Option.bind_some]
  decodes := tagged_decodes

end WsServer
