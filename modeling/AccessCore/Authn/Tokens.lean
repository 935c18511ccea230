/-
  Access tokens (`authn/infrastructure/tokens/jwt-access-token-issuer.ts`, `jwt-verifier.ts`,
  `authn/infrastructure/jwks/jwks-provider.ts`, `authn/domain/ports/signer.ts`).

  A token is kept as its three segments, already decoded: the text of a segment is the base64url of
  its JSON, and a signature is over the text of the first two.  A claim of a token is `none` when it
  is absent or not of the type the verifier asks for.  Times are in milliseconds where the code has
  a `Date` and in whole seconds where it has a JWT claim.

  The signature algorithm is a parameter: a key for each version of the signing key, and that a
  signature verifies under the key that made it.
-/
import Mathlib

namespace AccessCore

/-! ## Tokens -/

structure JwtHeader where
  alg : Option String
  typ : Option String
  kid : Option String
deriving DecidableEq, Repr

/-- The `aud` claim: a text, a list of texts, or anything else. -/
inductive Audience where
  | text (aud : String)
  | texts (auds : List String)
  | other
deriving DecidableEq, Repr

/-- `VerifiedClaims`: the payload of a token. -/
structure VerifiedClaims where
  iss : Option String
  aud : Audience
  sub : Option String
  sid : Option String
  org : Option String
  jti : Option String
  aal : Option Nat
  authTime : Option Int
  iat : Option Int
  nbf : Option Int
  exp : Option Int
deriving DecidableEq, Repr

structure Jwt where
  header : JwtHeader
  payload : VerifiedClaims
  signature : String
deriving DecidableEq, Repr

/-- What is signed: the first two segments. -/
abbrev SigningInput := JwtHeader × VerifiedClaims

/-- `AccessTokenClaims`, what a token is asked for. -/
structure AccessTokenClaims where
  sub : String
  sid : String
  org : Option String
  aal : Nat
  authTime : Int
deriving DecidableEq, Repr

structure IssuedAccessToken where
  token : Jwt
  jti : String
  expiresAt : Int
  expiresInSeconds : Nat
deriving DecidableEq, Repr

/-- `AccessTokenConfig`. -/
structure AccessTokenConfig where
  issuer : String
  audience : String
  ttlSeconds : Nat

/-- `Math.floor(ms / 1000)`. -/
def seconds (ms : Int) : Int := ms / 1000

theorem seconds_mono {a b : Int} (h : a ≤ b) : seconds a ≤ seconds b :=
  Int.ediv_le_ediv (by omega) h

theorem seconds_mul_le (ms : Int) : seconds ms * 1000 ≤ ms := by
  unfold seconds
  omega

/-- The payload `issue` signs at the clock reading `nowMs`; an empty `org` is left out. -/
def payloadOf (config : AccessTokenConfig) (claims : AccessTokenClaims) (jti : String)
    (nowMs : Int) : VerifiedClaims where
  iss := some config.issuer
  aud := .text config.audience
  sub := some claims.sub
  sid := some claims.sid
  org := claims.org.filter (· ≠ "")
  jti := some jti
  aal := some claims.aal
  authTime := some (seconds claims.authTime)
  iat := some (seconds nowMs)
  nbf := some (seconds nowMs)
  exp := some (seconds nowMs + config.ttlSeconds)

/-! ## Keys -/

/-- `Signature`; the algorithm is always `EdDSA`. -/
structure Signature where
  kid : String
  value : String
deriving DecidableEq, Repr

/-- `PublicKey` of the signer port. -/
structure PublicKey where
  kid : String
  alg : String
  key : String
  version : Nat
deriving DecidableEq, Repr

/-- The signature algorithm, with one key for each version. -/
structure SignatureScheme where
  key : Nat → String
  sign : Nat → SigningInput → String
  verify : String → SigningInput → String → Bool
  verify_sign : ∀ version input, verify (key version) input (sign version input) = true

/-- A scheme to run things with: a signature is the name of the version. -/
def digitScheme : SignatureScheme where
  key version := toString version
  sign version _ := toString version
  verify key _ value := key == value
  verify_sign := by simp

/-- `VaultTransitSigner.kidFor`. -/
def kidFor (keyName : String) (version : Nat) : String := keyName ++ "-" ++ toString version

theorem kidFor_inj {keyName : String} {v w : Nat} (h : kidFor keyName v = kidFor keyName w) :
    v = w := by
  have hlist := congrArg String.toList h
  simp only [kidFor, String.toList_append, List.append_assoc] at hlist
  have hdigits := List.append_cancel_left (List.append_cancel_left hlist)
  exact Nat.repr_injective (String.ext hdigits)

/-! ## The key set -/

/-- `Jwk`; `kty`, `crv` and `use` are constants. -/
structure Jwk where
  x : String
  kid : String
  alg : String
deriving DecidableEq, Repr

/-- `JwksProvider`, with the key set it last loaded. -/
structure JwksProvider where
  cache : Option (List Jwk)
  cachedAtMs : Int
deriving DecidableEq, Repr

namespace JwksProvider

/-- `MIN_REFRESH_MS`. -/
def minRefreshMs : Int := 5000

def toJwk (key : PublicKey) : Jwk := ⟨key.key, key.kid, key.alg⟩

/-- `load`, when the signer publishes `keys`. -/
def load (keys : List PublicKey) (nowMs : Int) : List Jwk × JwksProvider :=
  (keys.map toJwk, ⟨some (keys.map toJwk), nowMs⟩)

/-- The cached key set if it is younger than `maxAgeMs`, else a fresh one. -/
def cachedFor (maxAgeMs : Int) (provider : JwksProvider) (keys : List PublicKey) (nowMs : Int) :
    List Jwk × JwksProvider :=
  match provider.cache with
  | some jwks =>
    if nowMs - provider.cachedAtMs < maxAgeMs then (jwks, provider) else load keys nowMs
  | none => load keys nowMs

def jwks (ttlSeconds : Nat) : JwksProvider → List PublicKey → Int → List Jwk × JwksProvider :=
  cachedFor (ttlSeconds * 1000)

def refresh : JwksProvider → List PublicKey → Int → List Jwk × JwksProvider :=
  cachedFor minRefreshMs

/-- A provider serves its cache or what the signer publishes now. -/
theorem cachedFor_cases (maxAgeMs : Int) (provider : JwksProvider) (keys : List PublicKey)
    (nowMs : Int) :
    (∃ jwks, provider.cache = some jwks ∧ nowMs - provider.cachedAtMs < maxAgeMs ∧
        cachedFor maxAgeMs provider keys nowMs = (jwks, provider)) ∨
      cachedFor maxAgeMs provider keys nowMs = load keys nowMs := by
  unfold cachedFor
  cases hcache : provider.cache with
  | none => exact Or.inr rfl
  | some jwks =>
    by_cases hage : nowMs - provider.cachedAtMs < maxAgeMs
    · exact Or.inl ⟨jwks, rfl, hage, if_pos hage⟩
    · exact Or.inr (if_neg hage)

end JwksProvider

/-! ## Verification -/

inductive VerifyError where
  | malformed
  | unknownKid
  | algMismatch
  | badSignature
  | untrustedIssuer
  | wrongAudience
  | expired
  | notYetValid
deriving DecidableEq, Repr

structure JwtVerifierConfig where
  issuer : String
  audience : String
  clockSkewSeconds : Nat

namespace JwtVerifier

def audienceMatches (config : JwtVerifierConfig) : Audience → Bool
  | .text aud => aud = config.audience
  | .texts auds => auds.contains config.audience
  | .other => false

/-- `verify` after the signature: issuer, audience, expiry and first validity, in this order. -/
def checkClaims (config : JwtVerifierConfig) (nowMs : Int) (payload : VerifiedClaims) :
    Except VerifyError VerifiedClaims :=
  if payload.iss ≠ some config.issuer then .error .untrustedIssuer
  else if !audienceMatches config payload.aud then .error .wrongAudience
  else if payload.exp.all fun exp => exp + config.clockSkewSeconds ≤ seconds nowMs then
    .error .expired
  else if payload.nbf.any fun nbf => nbf - config.clockSkewSeconds > seconds nowMs then
    .error .notYetValid
  else .ok payload

/-- `verify` once the key of the token is known. -/
def checkToken (scheme : SignatureScheme) (config : JwtVerifierConfig) (nowMs : Int) (token : Jwt)
    (jwk : Jwk) : Except VerifyError VerifiedClaims :=
  if jwk.alg ≠ "EdDSA" || token.header.alg ≠ some jwk.alg then .error .algMismatch
  else if !scheme.verify jwk.x (token.header, token.payload) token.signature then
    .error .badSignature
  else checkClaims config nowMs token.payload

/-- `verify`, when the signer publishes `keys`. -/
def verify (scheme : SignatureScheme) (config : JwtVerifierConfig) (jwksTtlSeconds : Nat)
    (nowMs : Int) (keys : List PublicKey) (provider : JwksProvider) (token : Jwt) :
    Except VerifyError VerifiedClaims × JwksProvider :=
  match token.header.typ, token.header.kid with
  | some "JWT", some kid =>
    let (jwks, provider) := provider.jwks jwksTtlSeconds keys nowMs
    match jwks.find? (·.kid = kid) with
    | some jwk => (checkToken scheme config nowMs token jwk, provider)
    | none =>
      -- the key may have been published since: ask the signer again
      let (jwks, provider) := provider.refresh keys nowMs
      match jwks.find? (·.kid = kid) with
      | some jwk => (checkToken scheme config nowMs token jwk, provider)
      | none => (.error .unknownKid, provider)
  | _, _ => (.error .malformed, provider)

/-- The claims of an issued token pass from the second it was issued until `exp` and the skew. -/
theorem checkClaims_payloadOf {config : AccessTokenConfig} {verifier : JwtVerifierConfig}
    (hissuer : verifier.issuer = config.issuer) (haudience : verifier.audience = config.audience)
    {claims : AccessTokenClaims} {jti : String} {issuedMs nowMs : Int} :
    checkClaims verifier nowMs (payloadOf config claims jti issuedMs) =
      if seconds issuedMs + config.ttlSeconds + verifier.clockSkewSeconds ≤ seconds nowMs then
        .error .expired
      else if seconds issuedMs - verifier.clockSkewSeconds > seconds nowMs then .error .notYetValid
      else .ok (payloadOf config claims jti issuedMs) := by
  simp [checkClaims, payloadOf, audienceMatches, hissuer, haudience]

end JwtVerifier

end AccessCore
