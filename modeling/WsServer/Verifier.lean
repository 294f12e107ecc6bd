import WsServer.Tokens

/-! What the verifier of a configuration accepts. The algorithm of a public key is guessed from a word in
    the text of the PEM, its family comes from the parser that takes it: where they disagree no token
    gets past. The issuer is compared only in tokens that name one. -/

namespace WsServer

variable {E : Ext} {J : Jwt E} {config : Config} {pem : String} {v : AuthVerifier E}

/-! ### Key and algorithm -/

/-- The word that `from_config` looks for. -/
def mentionsEd (pem : String) : Bool := strContains pem "ED25519" || strContains pem "Ed25519"

/-- A verifier for a public key. -/
theorem fromConfig_pem (hsecret : config.jwtSecret = none) (hpem : config.jwtPublicKey = some pem)
    (hv : AuthVerifier.fromConfig config = some v) : parsePem E pem = some v.decodingKey ∧
      v.algorithm = if mentionsEd pem then .edDSA else .rs256 := by
  simp only [AuthVerifier.fromConfig, hsecret, hpem, Option.map_eq_some_iff] at hv
  obtain ⟨key, hkey, rfl⟩ := hv
  exact ⟨hkey, rfl⟩

/-- Whichever parser takes the PEM, the key is of its family. -/
theorem family_of_parsePem (hJ : J.Documented) {key : E.DecodingKey} (h : parsePem E pem = some key) :
    J.holds pem = some (J.family key) ∧
      (J.family key = .rsa ∨ J.family key = .ec ∨ J.family key = .ed) := by
  have htaken : ∀ {parser : String → Option E.DecodingKey} {family : KeyFamily},
      J.Parses parser family → parser pem = some key →
        J.holds pem = some (J.family key) ∧ J.family key = family := by
    intro parser family hparses hkey
    obtain ⟨htakes, htags⟩ := hparses pem
    rw [htags key hkey]
    exact ⟨htakes.mp (by rw [hkey]; rfl), rfl⟩
  rcases Option.or_eq_some_iff.mp h with hrsa | ⟨-, h⟩
  · obtain ⟨hholds, hfamily⟩ := htaken hJ.rsa hrsa
    exact ⟨hholds, .inl hfamily⟩
  rcases Option.or_eq_some_iff.mp h with hec | ⟨-, hed⟩
  · obtain ⟨hholds, hfamily⟩ := htaken hJ.ec hec
    exact ⟨hholds, .inr (.inl hfamily)⟩
  · obtain ⟨hholds, hfamily⟩ := htaken hJ.ed hed
    exact ⟨hholds, .inr (.inr hfamily)⟩

/-- At any time some token that is signed under the algorithm passes. -/
def AuthVerifier.Opens (J : Jwt E) (v : AuthVerifier E) (algorithm : Algorithm) : Prop :=
  ∀ now, ∃ token identity, J.Signed v.decodingKey algorithm token ∧ v.verify now token = .ok identity

/-- The algorithm is of the family of the key, so the owner of an RSA or Ed25519 key gets in. -/
structure KeyAgrees (J : Jwt E) (pem : String) (v : AuthVerifier E) : Prop where
  family : v.algorithm.family = J.family v.decodingKey
  rsa : J.holds pem = some .rsa → v.Opens J .rs256
  ed : J.holds pem = some .ed → v.Opens J .edDSA

/-- An RSA key whose PEM does not contain the word, or an Ed25519 key whose PEM does. -/
def WellHinted (J : Jwt E) (pem : String) : Prop :=
  (J.holds pem = some .rsa ∧ mentionsEd pem = false) ∨ (J.holds pem = some .ed ∧ mentionsEd pem = true)

/-- A matching key opens for a token of any claims that are not expired. -/
theorem opens_of_family (hJ : J.Documented) (h : v.algorithm.family = J.family v.decodingKey) :
    v.Opens J v.algorithm := by
  intro now
  obtain ⟨token, hsigned, hclaims, haudience⟩ := hJ.signs v.decodingKey v.algorithm
    ⟨"", none, J.time now - J.leeway, none⟩ none h.symm
  refine ⟨token, ⟨"", "default"⟩, hsigned, (AuthVerifier.verify_iff hJ.decodes).mpr ?_⟩
  refine ⟨_, ⟨h.symm, hsigned, hclaims, ?_, ?_, haudience⟩, rfl⟩
  · exact (sub_add_cancel (J.time now) J.leeway).ge
  · rintro x iss - ⟨⟩

theorem wellHinted_iff (hJ : J.Documented) (hsecret : config.jwtSecret = none)
    (hpem : config.jwtPublicKey = some pem) (hv : AuthVerifier.fromConfig config = some v) :
    WellHinted J pem ↔ v.algorithm.family = J.family v.decodingKey := by
  obtain ⟨hkey, halgorithm⟩ := fromConfig_pem hsecret hpem hv
  obtain ⟨hholds, hfamily⟩ := family_of_parsePem hJ hkey
  rw [WellHinted, hholds, halgorithm]
  cases mentionsEd pem <;> rcases hfamily with h | h | h <;> rw [h] <;> decide

/-- A verifier for a public key agrees with itself exactly if the PEM is hinted well; if not it rejects
    every token. -/
theorem keyAgrees_iff (hJ : J.Documented) (hsecret : config.jwtSecret = none)
    (hpem : config.jwtPublicKey = some pem) (hv : AuthVerifier.fromConfig config = some v) :
    (KeyAgrees J pem v ↔ WellHinted J pem) ∧
      (¬ WellHinted J pem → ∀ now token identity, v.verify now token ≠ .ok identity) := by
  have hiff := wellHinted_iff hJ hsecret hpem hv
  refine ⟨⟨fun h => hiff.mpr h.family, fun h => ?_⟩, fun hnot now token identity hok => ?_⟩
  · have hfamily := hiff.mp h
    have hopens := opens_of_family hJ hfamily
    rw [(fromConfig_pem hsecret hpem hv).2] at hopens
    refine ⟨hfamily, fun hrsa => ?_, fun hed => ?_⟩
    · rcases h with ⟨-, hplain⟩ | ⟨hed, -⟩
      · rw [hplain] at hopens
        exact hopens
      · rw [hrsa] at hed
        cases hed
    · rcases h with ⟨hrsa, -⟩ | ⟨-, hword⟩
      · rw [hrsa] at hed
        cases hed
      · rw [hword] at hopens
        exact hopens
  · obtain ⟨c, hpasses, -⟩ := (AuthVerifier.verify_iff hJ.decodes).mp hok
    exact hnot (hiff.mpr hpasses.family.symm)

/-- An Ed25519 key, as tools write it. -/
def edPem : String :=
  "-----BEGIN PUBLIC KEY-----\n" ++
  "MCowBQYDK2VwAyEA9jC/UvMA0hMe+CTysQIlfyzzOXuSTt8AygYYFgKx3fU=\n" ++
  "-----END PUBLIC KEY-----\n"

/-- The same with a remark before it. -/
def remarkedPem : String := "ED25519 key of the login service\n" ++ edPem

theorem strContains_append {s sub : String} (r : String) (h : strContains s sub = true) :
    strContains (r ++ s) sub = true := by
  rw [strContains, decide_eq_true_eq] at h ⊢
  rw [String.toList_append]
  exact h.trans (List.suffix_append _ _).isInfix

theorem edPem_head : strContains edPem "MCowBQYDK2VwAyEA" = true := by decide +kernel

theorem pemFamily_ed {pem : String} (h : strContains pem "MCowBQYDK2VwAyEA" = true) :
    pemFamily pem = some .ed := by
  rw [pemFamily, if_pos h]

def Config.publicKey (pem : String) : Config := { Config.plain with jwtPublicKey := some pem }

/-- The library takes every PEM of an Ed25519 key. -/
theorem tagged_takes_ed {pem : String} (h : pemFamily pem = some .ed) :
    ∃ v : AuthVerifier Ext.jwt, AuthVerifier.fromConfig (Config.publicKey pem) = some v := by
  refine Option.isSome_iff_exists.mp ((AuthVerifier.fromConfig_isSome _).mpr (.inr ⟨pem, rfl, ?_⟩))
  have hed : (Ext.jwt.fromEdPem pem).isSome = true := (tagged_parses .ed pem).1.mpr h
  rw [parsePem, Option.isSome_or, Option.isSome_or, hed, Bool.or_true, Bool.or_true]

theorem wellHinted_ed {pem : String} (h : pemFamily pem = some .ed) :
    WellHinted Jwt.tagged pem ↔ mentionsEd pem = true := by
  constructor
  · rintro (⟨hrsa, -⟩ | ⟨-, hword⟩)
    · cases h.symm.trans hrsa
    · exact hword
  · exact fun hword => .inr ⟨h, hword⟩

theorem keyAgrees_remarked : ∃ v : AuthVerifier Ext.jwt,
    AuthVerifier.fromConfig (Config.publicKey remarkedPem) = some v ∧
      KeyAgrees Jwt.tagged remarkedPem v := by
  have hholds : pemFamily remarkedPem = some .ed := pemFamily_ed (strContains_append _ edPem_head)
  have hword : mentionsEd remarkedPem = true := by decide +kernel
  obtain ⟨v, hv⟩ := tagged_takes_ed hholds
  exact ⟨v, hv, (keyAgrees_iff tagged_documented rfl rfl hv).1.mpr ((wellHinted_ed hholds).mpr hword)⟩

/-- The text of the key does not say Ed25519: the verifier asks for RS256. -/
theorem keyAgrees_not_ed : ¬ ∀ (config : Config) (pem : String) (v : AuthVerifier Ext.jwt),
    config.jwtSecret = none → config.jwtPublicKey = some pem →
      AuthVerifier.fromConfig config = some v → KeyAgrees Jwt.tagged pem v := by
  intro hall
  have hholds : pemFamily edPem = some .ed := pemFamily_ed edPem_head
  have hword : mentionsEd edPem = false := by decide +kernel
  obtain ⟨v, hv⟩ := tagged_takes_ed hholds
  have hagrees := (hall _ edPem v rfl rfl hv).family
  have hhinted := (wellHinted_iff tagged_documented rfl rfl hv).mpr hagrees
  exact Bool.false_ne_true (hword.symm.trans ((wellHinted_ed hholds).mp hhinted))

/-! ### The issuer -/

/-- A token that passes names the issuer, is not expired, and its claims are the identity. -/
def IssuerEnforced (J : Jwt E) (v : AuthVerifier E) (issuer : String) (now : ℕ) (token : String) : Prop :=
  ∀ identity, v.verify now token = .ok identity → ∃ c, J.claims token = some c ∧
    c.iss = some issuer ∧ J.Current now c ∧ identity = ⟨c.sub, c.tenantId.getD "default"⟩

/-- The token is in order but for the issuer: it names none, and it names no audience either. -/
structure Unissued (J : Jwt E) (v : AuthVerifier E) (now : ℕ) (token : String) : Prop where
  family : J.family v.decodingKey = v.algorithm.family
  signed : J.Signed v.decodingKey v.algorithm token
  claims : ∃ c, J.claims token = some c ∧ J.Current now c ∧ c.iss = none
  audience : J.audience token = none

/-- The issuer is enforced for every token but those that are in order and name none. -/
theorem issuerEnforced_iff {issuer : String} {now : ℕ} {token : String} (hdecodes : J.Decodes)
    (hissuer : v.issuer = some issuer) :
    IssuerEnforced J v issuer now token ↔ ¬ Unissued J v now token := by
  constructor
  · rintro henforced ⟨hfamily, hsigned, ⟨c, hclaims, hcurrent, hnone⟩, haudience⟩
    have hother : ∀ x iss, v.issuer = some x → c.iss = some iss → iss = x := by
      rintro x iss - hiss
      cases hnone.symm.trans hiss
    obtain ⟨c', hclaims', hiss, -⟩ := henforced _ ((AuthVerifier.verify_iff hdecodes).mpr
      ⟨c, ⟨hfamily, hsigned, hclaims, hcurrent, hother, haudience⟩, rfl⟩)
    obtain rfl : c = c' := Option.some.inj (hclaims.symm.trans hclaims')
    cases hnone.symm.trans hiss
  · intro hissued identity hok
    obtain ⟨c, hpasses, rfl⟩ := (AuthVerifier.verify_iff hdecodes).mp hok
    refine ⟨c, hpasses.claims, ?_, hpasses.current, rfl⟩
    rcases hiss : c.iss with _ | iss
    · exact absurd ⟨hpasses.family, hpasses.signed, ⟨c, hpasses.claims, hpasses.current, hiss⟩,
        hpasses.audience⟩ hissued
    · rw [hpasses.issuer issuer iss hissuer hiss]

/-- A shared secret and an issuer. -/
def Config.issuing : Config :=
  { Config.plain with jwtSecret := some "s3cret", jwtIssuer := some "expected-iss" }

def issuingVerifier : AuthVerifier Ext.jwt := ⟨.hmac ⟨.hmac, "s3cret"⟩, some "expected-iss"⟩

theorem fromConfig_issuing : AuthVerifier.fromConfig Config.issuing = some issuingVerifier := rfl

/-- A token of Alice for an hour, from the given issuer and for everybody. -/
def aliceToken (iss : Option String) : String :=
  SignedClaims.token ⟨⟨.hmac, "s3cret"⟩, .hs256, ⟨"alice", none, 3600, iss⟩, none⟩

theorem claims_aliceToken (iss : Option String) :
    Jwt.tagged.claims (aliceToken iss) = some ⟨"alice", none, 3600, iss⟩ := by
  simp only [Jwt.tagged, aliceToken, readToken_token, Option.map_some]

/-- The verifier takes the token with its issuer, and with none. -/
theorem passes_aliceToken {iss : Option String} (h : ∀ x, iss = some x → x = "expected-iss") :
    AuthVerifier.Passes Jwt.tagged issuingVerifier 0 (aliceToken iss) ⟨"alice", none, 3600, iss⟩ where
  family := rfl
  signed := ⟨_, _, readToken_token _⟩
  claims := claims_aliceToken iss
  current := by
    have hfresh : ((0 / 1000000000 : ℕ) : ℤ) ≤ 3600 + 60 := by decide
    exact hfresh
  issuer x y hx hy := (h y hy).trans (Option.some.inj hx)
  audience := by simp only [Jwt.tagged, aliceToken, readToken_token, Option.bind_some]

theorem issuerEnforced_expected :
    (issuingVerifier.verify 0 (aliceToken (some "expected-iss")) = .ok ⟨"alice", "default"⟩) ∧
      IssuerEnforced Jwt.tagged issuingVerifier "expected-iss" 0 (aliceToken (some "expected-iss")) := by
  refine ⟨(AuthVerifier.verify_iff tagged_decodes).mpr ⟨_, passes_aliceToken ?_, rfl⟩,
    (issuerEnforced_iff tagged_decodes rfl).mpr ?_⟩
  · rintro x ⟨⟩
    rfl
  · rintro ⟨-, -, ⟨c, hclaims, -, hnone⟩, -⟩
    rw [claims_aliceToken, Option.some.injEq] at hclaims
    rw [← hclaims] at hnone
    cases hnone

/-- A token without an issuer passes. -/
theorem issuer_not_enforced : ¬ ∀ (config : Config) (v : AuthVerifier Ext.jwt) (issuer : String) (now : ℕ)
    (token : String), AuthVerifier.fromConfig config = some v → v.issuer = some issuer →
      IssuerEnforced Jwt.tagged v issuer now token := by
  intro hall
  have hok : issuingVerifier.verify 0 (aliceToken none) = .ok ⟨"alice", "default"⟩ :=
    (AuthVerifier.verify_iff tagged_decodes).mpr ⟨_, passes_aliceToken (by rintro x ⟨⟩), rfl⟩
  obtain ⟨c, hclaims, hiss, -⟩ := hall _ _ _ 0 (aliceToken none) fromConfig_issuing rfl _ hok
  rw [claims_aliceToken, Option.some.injEq] at hclaims
  rw [← hclaims] at hiss
  cases hiss

end WsServer
