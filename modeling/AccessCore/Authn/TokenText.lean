/-
  The text of an access token (`authn/infrastructure/tokens/jwt-verifier.ts`,
  `jwt-access-token-issuer.ts`).

  `Authn.Tokens` starts from a token whose segments are decoded.  Here is the text that anyone can
  send: `verify` splits it, reads base64url, UTF-8 and JSON, and looks at a value of any JSON type.
  An exception that leaves `verify` is kept apart from the errors it returns: a property of `null`
  is read in two places that no `try` covers.

  What Node brings along is a parameter: `Buffer`, the numbers, and Ed25519, with the laws that
  tokens rest on.  `NaN` is left out of the numbers: no text of JSON stands for it, and every sum
  here has a finite addend.
-/
import AccessCore.Authn.Tokens
import AccessCore.Lib.BitText
import AccessCore.Lib.JsonInteger

namespace AccessCore

namespace TokenText

open JsString

/-! ## Node -/

abbrev Bytes := List (BitVec 8)

/-- `Buffer` and `TextEncoder`, as far as tokens use them.  Reading is total: foreign symbols are
skipped, and bytes that are no UTF-8 are replaced. -/
structure Buffer where
  utf8 : JsString → Bytes
  toUtf8 : Bytes → JsString
  toBase64url : Bytes → JsString
  fromBase64url : JsString → Bytes
  toUtf8_utf8 : ∀ text, wellFormed text = true → toUtf8 (utf8 text) = text
  fromBase64url_toBase64url : ∀ bytes, fromBase64url (toBase64url bytes) = bytes
  dot_notMem : ∀ bytes, (46 : CodeUnit) ∉ toBase64url bytes

/-- Integers that a double holds exactly, with all between them and zero. -/
def Safe (n : Int) : Prop := -(2 ^ 53) ≤ n ∧ n ≤ 2 ^ 53

/-- The numbers of JavaScript other than `NaN`. -/
structure Doubles where
  Number : Type
  [order : LinearOrder Number]
  ofInt : Int → Number
  add : Number → Number → Number
  sub : Number → Number → Number
  mul : Number → Number → Number
  isFinite : Number → Bool
  /-- The number that a text of JSON stands for. -/
  ofText : JsonNumber → Number
  /-- `Number::toString` of a finite number. -/
  toText : Number → JsonNumber
  ofText_toText : ∀ x, isFinite x = true → ofText (toText x) = x
  isNumberText_toText : ∀ x, isFinite x = true → Json.isNumberText (toText x).text = true
  isFinite_ofInt : ∀ n, Safe n → isFinite (ofInt n) = true
  isFinite_add : ∀ n x, Safe n → isFinite x = true → isFinite (add (ofInt n) x) = true
  add_ofInt : ∀ m n, Safe m → Safe n → Safe (m + n) → add (ofInt m) (ofInt n) = ofInt (m + n)
  sub_ofInt : ∀ m n, Safe m → Safe n → Safe (m - n) → sub (ofInt m) (ofInt n) = ofInt (m - n)
  ofInt_le_ofInt : ∀ m n, Safe m → Safe n → (ofInt m ≤ ofInt n ↔ m ≤ n)

attribute [instance] Doubles.order

/-- A number as `JSON.stringify` writes it. -/
def Doubles.json (numbers : Doubles) (x : numbers.Number) : Json :=
  if numbers.isFinite x then .number (numbers.toText x) else .null

/-- A key of the key set; `kty`, `crv` and `use` are constants. -/
structure Jwk where
  x : JsString
  kid : JsString
  alg : JsString
deriving DecidableEq

/-- Ed25519, and `createPublicKey`, which throws where it gives no key. -/
structure Ed25519 where
  PrivateKey : Type
  PublicKey : Type
  publicKey : PrivateKey → PublicKey
  sign : PrivateKey → Bytes → Bytes
  verify : PublicKey → Bytes → Bytes → Bool
  createPublicKey : Jwk → Option PublicKey
  /-- A signature is accepted exactly if the matching key has made it. -/
  verify_iff : ∀ key message signature, verify key message signature = true ↔
    ∃ privateKey, publicKey privateKey = key ∧ signature = sign privateKey message

structure Node where
  buffer : Buffer
  numbers : Doubles
  crypto : Ed25519

/-- A `Date`, which holds no time further than this from 1970. -/
structure Instant where
  ms : Int
  inRange : -8640000000000000 ≤ ms ∧ ms ≤ 8640000000000000

theorem Instant.safe_seconds (t : Instant) : Safe (seconds t.ms) := by
  obtain ⟨hlow, hhigh⟩ := t.inRange
  unfold seconds
  constructor
  · norm_num
    omega
  · norm_num
    omega

/-! ## Values of any type -/

/-- An exception that leaves `verify`. -/
inductive Thrown where
  /-- A property of `null` is read. -/
  | typeError
  /-- `createPublicKey` refuses the key. -/
  | invalidKey
deriving DecidableEq

/-- A property of a value other than `null`; `none` is `undefined`. -/
def field (key : String) : Json → Option Json
  | .object entries => entries.lookup (ascii key)
  | _ => none

/-- `value.key`. -/
def property (key : String) : Json → Except Thrown (Option Json)
  | .null => .error .typeError
  | value => .ok (field key value)

/-- A value whose `typeof` is `string`. -/
def textOf : Option Json → Option JsString
  | some (.string text) => some text
  | _ => none

/-- A value whose `typeof` is `number`. -/
def numberOf : Option Json → Option JsonNumber
  | some (.number n) => some n
  | _ => none

/-! ## Verification -/

/-- What the provider answers to `jwks` and to `refresh`. -/
structure KeySet where
  jwks : List Jwk
  refreshed : List Jwk

/-- The first key of that id, from the cached set or else from a fresh one. -/
def KeySet.find (keys : KeySet) (kid : JsString) : Option Jwk :=
  (keys.jwks.find? (·.kid == kid)).or (keys.refreshed.find? (·.kid == kid))

section Verifier

variable (node : Node)

/-- `JwtVerifierConfig`. -/
structure JwtVerifierConfig where
  issuer : JsString
  audience : JsString
  clockSkewSeconds : node.numbers.Number

def audienceMatches (audience : JsString) : Option Json → Bool
  | some (.string aud) => aud == audience
  | some (.array auds) => auds.any fun aud => textOf (some aud) == some audience
  | _ => false

/-- `JSON.parse(Buffer.from(segment, 'base64url').toString('utf8'))`. -/
def decodeSegment (segment : JsString) : Option Json :=
  Json.parse (node.buffer.toUtf8 (node.buffer.fromBase64url segment))

/-- What is signed: the first two segments. -/
def signingInput (headerB64 payloadB64 : JsString) : Bytes :=
  node.buffer.utf8 (headerB64 ++ 46 :: payloadB64)

/-- `verify` from the header to the signature. -/
def checkSignature (keys : KeySet) (headerB64 payloadB64 signatureB64 : JsString) (header : Json) :
    Except Thrown (Except VerifyError Unit) := do
  -- the first of these decides whether the others throw
  let typ ← property "typ" header
  let kid ← property "kid" header
  let alg ← property "alg" header
  if textOf typ ≠ some (ascii "JWT") then return .error .malformed
  match textOf kid with
  | none => return .error .malformed
  | some kid =>
    match keys.find kid with
    | none => return .error .unknownKid
    | some jwk =>
      if jwk.alg ≠ ascii "EdDSA" ∨ textOf alg ≠ some jwk.alg then return .error .algMismatch
      match node.crypto.createPublicKey jwk with
      | none => throw .invalidKey
      | some publicKey =>
        if node.crypto.verify publicKey (signingInput node headerB64 payloadB64)
            (node.buffer.fromBase64url signatureB64) then return .ok ()
        return .error .badSignature

/-- `verify` after the signature. -/
def checkPayload (config : JwtVerifierConfig node) (now : Instant) (payload : Json) :
    Except Thrown (Except VerifyError Json) := do
  let iss ← property "iss" payload
  let aud ← property "aud" payload
  let exp ← property "exp" payload
  let nbf ← property "nbf" payload
  let nowSeconds := node.numbers.ofInt (seconds now.ms)
  if textOf iss ≠ some config.issuer then return .error .untrustedIssuer
  if !audienceMatches config.audience aud then return .error .wrongAudience
  match numberOf exp with
  | none => return .error .expired
  | some exp =>
    if node.numbers.add (node.numbers.ofText exp) config.clockSkewSeconds ≤ nowSeconds then
      return .error .expired
    if (numberOf nbf).any fun nbf =>
        node.numbers.sub (node.numbers.ofText nbf) config.clockSkewSeconds > nowSeconds then
      return .error .notYetValid
    return .ok payload

/-- `verify`: an exception, or the result it returns. -/
def verify (config : JwtVerifierConfig node) (keys : KeySet) (now : Instant) (token : JsString) :
    Except Thrown (Except VerifyError Json) :=
  match token.splitOn 46 with
  | [headerB64, payloadB64, signatureB64] =>
    match decodeSegment node headerB64, decodeSegment node payloadB64 with
    | some header, some payload => do
      match ← checkSignature node keys headerB64 payloadB64 signatureB64 header with
      | .error e => return .error e
      | .ok () => checkPayload node config now payload
    | _, _ => .ok (.error .malformed)
  | _ => .ok (.error .malformed)

/-! ## What the checks find -/

theorem property_eq {value : Json} (h : value ≠ .null) (key : String) :
    property key value = .ok (field key value) := by
  cases value with
  | null => exact absurd rfl h
  | _ => rfl

/-- No key of the set makes `createPublicKey` throw. -/
def KeySet.WellFormed (keys : KeySet) : Prop :=
  ∀ jwk ∈ keys.jwks ++ keys.refreshed, ∃ key, node.crypto.createPublicKey jwk = some key

theorem KeySet.find_mem {keys : KeySet} {kid : JsString} {jwk : Jwk}
    (h : keys.find kid = some jwk) : jwk ∈ keys.jwks ++ keys.refreshed ∧ jwk.kid = kid := by
  rcases Option.or_eq_some_iff.mp h with hcached | ⟨-, hfresh⟩
  · refine ⟨List.mem_append_left _ (List.mem_of_find?_eq_some hcached), ?_⟩
    simpa using List.find?_some hcached
  · refine ⟨List.mem_append_right _ (List.mem_of_find?_eq_some hfresh), ?_⟩
    simpa using List.find?_some hfresh

/-- The third segment signs the first two, under the `EdDSA` key whose id the header names. -/
structure Signed (keys : KeySet) (headerB64 payloadB64 signatureB64 : JsString) (header : Json) :
    Prop where
  typ : textOf (field "typ" header) = some (ascii "JWT")
  key : ∃ kid jwk privateKey, textOf (field "kid" header) = some kid ∧ keys.find kid = some jwk ∧
    jwk.alg = ascii "EdDSA" ∧ textOf (field "alg" header) = some jwk.alg ∧
    node.crypto.createPublicKey jwk = some (node.crypto.publicKey privateKey) ∧
    node.buffer.fromBase64url signatureB64 =
      node.crypto.sign privateKey (signingInput node headerB64 payloadB64)

/-- The segments of a token whose first two can be read. -/
def Reads (token headerB64 payloadB64 signatureB64 : JsString) (header payload : Json) : Prop :=
  token.splitOn 46 = [headerB64, payloadB64, signatureB64] ∧
    decodeSegment node headerB64 = some header ∧ decodeSegment node payloadB64 = some payload

/-- A property of `null` is read: the header is `null`, or the payload is and nothing before it
has failed. -/
def ReadsNull (keys : KeySet) (token : JsString) : Prop :=
  ∃ headerB64 payloadB64 signatureB64 header payload,
    Reads node token headerB64 payloadB64 signatureB64 header payload ∧
      (header = .null ∨
        payload = .null ∧ Signed node keys headerB64 payloadB64 signatureB64 header)

variable {node} {config : JwtVerifierConfig node} {keys : KeySet} {now : Instant}

section Header

variable {headerB64 payloadB64 signatureB64 : JsString} {header : Json}

theorem checkSignature_null :
    checkSignature node keys headerB64 payloadB64 signatureB64 .null = .error .typeError := rfl

variable (headerB64 payloadB64 signatureB64) in
/-- A header other than `null` gives a result. -/
theorem checkSignature_returns (hkeys : keys.WellFormed node) (hnull : header ≠ .null) :
    ∃ r, checkSignature node keys headerB64 payloadB64 signatureB64 header = .ok r := by
  unfold checkSignature
  simp only [property_eq hnull, bind, Except.bind, pure, Except.pure]
  by_cases htyp : textOf (field "typ" header) = some (ascii "JWT")
  · rw [if_neg (not_not.mpr htyp)]
    cases textOf (field "kid" header) with
    | none => exact ⟨_, rfl⟩
    | some kid =>
      cases hfind : keys.find kid with
      | none => simp only [hfind, Except.ok.injEq, exists_eq']
      | some jwk =>
        obtain ⟨publicKey, hpublic⟩ := hkeys jwk (KeySet.find_mem hfind).1
        simp only [hfind, hpublic]
        split_ifs
        · exact ⟨_, rfl⟩
        · exact ⟨_, rfl⟩
        · exact ⟨_, rfl⟩
  · rw [if_pos htyp]
    exact ⟨_, rfl⟩

theorem checkSignature_ok_iff :
    checkSignature node keys headerB64 payloadB64 signatureB64 header = .ok (.ok ()) ↔
      Signed node keys headerB64 payloadB64 signatureB64 header := by
  by_cases hnull : header = .null
  · subst hnull
    constructor
    · intro h
      cases h
    · intro h
      exact absurd h.typ (by simp [field, textOf])
  unfold checkSignature
  simp only [property_eq hnull, bind, Except.bind, pure, Except.pure]
  constructor
  · intro h
    by_cases htyp : textOf (field "typ" header) = some (ascii "JWT")
    · rw [if_neg (not_not.mpr htyp)] at h
      cases hkid : textOf (field "kid" header) with
      | none =>
        simp only [hkid] at h
        cases h
      | some kid =>
        simp only [hkid] at h
        cases hfind : keys.find kid with
        | none =>
          simp only [hfind] at h
          cases h
        | some jwk =>
          simp only [hfind] at h
          by_cases halg : jwk.alg ≠ ascii "EdDSA" ∨ textOf (field "alg" header) ≠ some jwk.alg
          · rw [if_pos halg] at h
            cases h
          · rw [if_neg halg] at h
            obtain ⟨heddsa, halg⟩ := not_or.mp halg
            cases hpublic : node.crypto.createPublicKey jwk with
            | none =>
              simp only [hpublic] at h
              cases h
            | some publicKey =>
              simp only [hpublic] at h
              split_ifs at h with hverify
              · obtain ⟨privateKey, rfl, hsign⟩ := (node.crypto.verify_iff _ _ _).mp hverify
                exact ⟨htyp, kid, jwk, privateKey, hkid, hfind, not_not.mp heddsa,
                  not_not.mp halg, hpublic, hsign⟩
              · cases h
    · rw [if_pos htyp] at h
      cases h
  · rintro ⟨htyp, kid, jwk, privateKey, hkid, hfind, heddsa, halg, hpublic, hsign⟩
    have hverify := (node.crypto.verify_iff _ _ _).mpr ⟨privateKey, rfl, hsign⟩
    have hmatch : ¬ (jwk.alg ≠ ascii "EdDSA" ∨ textOf (field "alg" header) ≠ some jwk.alg) :=
      fun h => h.elim (fun h => h heddsa) fun h => h halg
    rw [if_neg (not_not.mpr htyp)]
    simp only [hkid, hfind, if_neg hmatch, hpublic, if_pos hverify]

end Header

/-! ## The claims -/

/-- The claims pass at this clock reading. -/
structure Passes (config : JwtVerifierConfig node) (now : Instant) (payload : Json) : Prop where
  iss : textOf (field "iss" payload) = some config.issuer
  aud : audienceMatches config.audience (field "aud" payload) = true
  exp : ∃ exp, numberOf (field "exp" payload) = some exp ∧ node.numbers.ofInt (seconds now.ms) <
    node.numbers.add (node.numbers.ofText exp) config.clockSkewSeconds
  nbf : ∀ nbf, numberOf (field "nbf" payload) = some nbf →
    node.numbers.sub (node.numbers.ofText nbf) config.clockSkewSeconds ≤
      node.numbers.ofInt (seconds now.ms)

theorem checkPayload_returns {payload : Json} (hnull : payload ≠ .null) :
    ∃ r, checkPayload node config now payload = .ok r := by
  unfold checkPayload
  simp only [property_eq hnull, bind, Except.bind, pure, Except.pure]
  cases numberOf (field "exp" payload) with
  | none =>
    simp only
    split_ifs
    · exact ⟨_, rfl⟩
    · exact ⟨_, rfl⟩
    · exact ⟨_, rfl⟩
  | some exp =>
    simp only
    split_ifs
    · exact ⟨_, rfl⟩
    · exact ⟨_, rfl⟩
    · exact ⟨_, rfl⟩
    · exact ⟨_, rfl⟩
    · exact ⟨_, rfl⟩

theorem checkPayload_ok_iff {payload r : Json} :
    checkPayload node config now payload = .ok (.ok r) ↔
      r = payload ∧ Passes config now payload := by
  by_cases hnull : payload = .null
  · subst hnull
    constructor
    · intro h
      cases h
    · rintro ⟨-, h⟩
      exact absurd h.iss (by simp [field, textOf])
  unfold checkPayload
  simp only [property_eq hnull, bind, Except.bind, pure, Except.pure]
  constructor
  · intro h
    by_cases hiss : textOf (field "iss" payload) = some config.issuer
    · rw [if_neg (not_not.mpr hiss)] at h
      cases haud : audienceMatches config.audience (field "aud" payload) with
      | false =>
        rw [haud] at h
        cases h
      | true =>
        have hnot : ¬ (!true) = true := by decide
        rw [haud, if_neg hnot] at h
        cases hexp : numberOf (field "exp" payload) with
        | none =>
          simp only [hexp] at h
          cases h
        | some exp =>
          simp only [hexp] at h
          split_ifs at h with hexpired hnbf
          · cases h
          · cases h
          · refine ⟨(Except.ok.inj (Except.ok.inj h)).symm, hiss, haud, ⟨exp, hexp, ?_⟩, ?_⟩
            · exact not_le.mp hexpired
            · intro nbf hsome
              rw [hsome] at hnbf
              simpa using hnbf
    · rw [if_pos hiss] at h
      cases h
  · rintro ⟨rfl, hiss, haud, ⟨exp, hexp, hlt⟩, hnbf⟩
    have hnotYet : ¬ (numberOf (field "nbf" r)).any (fun nbf => decide
        (node.numbers.sub (node.numbers.ofText nbf) config.clockSkewSeconds >
          node.numbers.ofInt (seconds now.ms))) = true := by
      cases hsome : numberOf (field "nbf" r) with
      | none => simp
      | some nbf => simpa using hnbf nbf hsome
    have haud' : ¬ (!audienceMatches config.audience (field "aud" r)) = true := by simp [haud]
    rw [if_neg (not_not.mpr hiss), if_neg haud']
    simp only [hexp, if_neg (not_le.mpr hlt), if_neg hnotYet]

/-! ## Verification -/

/-- A token whose segments cannot be read is malformed. -/
theorem verify_malformed {token : JsString}
    (h : ∀ headerB64 payloadB64 signatureB64 header payload,
      ¬ Reads node token headerB64 payloadB64 signatureB64 header payload) :
    verify node config keys now token = .ok (.error .malformed) := by
  unfold verify
  split
  · next headerB64 payloadB64 signatureB64 hsplit =>
    cases hheader : decodeSegment node headerB64 with
    | none => rfl
    | some header =>
      cases hpayload : decodeSegment node payloadB64 with
      | none => rfl
      | some payload => exact absurd ⟨hsplit, hheader, hpayload⟩ (h _ _ _ _ _)
  · rfl

/-- A token whose segments can be read. -/
theorem verify_eq {token headerB64 payloadB64 signatureB64 : JsString} {header payload : Json}
    (h : Reads node token headerB64 payloadB64 signatureB64 header payload) :
    verify node config keys now token =
      match checkSignature node keys headerB64 payloadB64 signatureB64 header with
      | .error thrown => .error thrown
      | .ok (.error e) => .ok (.error e)
      | .ok (.ok ()) => checkPayload node config now payload := by
  obtain ⟨hsplit, hheader, hpayload⟩ := h
  unfold verify
  simp only [hsplit, hheader, hpayload, bind, Except.bind]
  cases checkSignature node keys headerB64 payloadB64 signatureB64 header with
  | error thrown => rfl
  | ok r => cases r <;> rfl

/-- A token is read, or it is malformed. -/
theorem verify_cases (config : JwtVerifierConfig node) (keys : KeySet) (now : Instant)
    (token : JsString) :
    (∃ headerB64 payloadB64 signatureB64 header payload,
      Reads node token headerB64 payloadB64 signatureB64 header payload) ∨
      verify node config keys now token = .ok (.error .malformed) := by
  by_cases h : ∃ headerB64 payloadB64 signatureB64 header payload,
      Reads node token headerB64 payloadB64 signatureB64 header payload
  · exact Or.inl h
  · refine Or.inr (verify_malformed ?_)
    intro headerB64 payloadB64 signatureB64 header payload hreads
    exact h ⟨headerB64, payloadB64, signatureB64, header, payload, hreads⟩

variable (config now) in
/-- `verify` returns unless a property of `null` is read. -/
theorem verify_returns_iff (hkeys : keys.WellFormed node) (token : JsString) :
    (∃ r, verify node config keys now token = .ok r) ↔ ¬ ReadsNull node keys token := by
  constructor
  · rintro ⟨r, hr⟩ ⟨headerB64, payloadB64, signatureB64, header, payload, hreads, hnull⟩
    rw [verify_eq hreads] at hr
    rcases hnull with rfl | ⟨rfl, hsigned⟩
    · rw [checkSignature_null] at hr
      cases hr
    · rw [checkSignature_ok_iff.mpr hsigned] at hr
      cases hr
  · intro hnull
    rcases verify_cases config keys now token with hreads | hmalformed
    · obtain ⟨headerB64, payloadB64, signatureB64, header, payload, hreads⟩ := hreads
      have hheader : header ≠ .null := fun h =>
        hnull ⟨headerB64, payloadB64, signatureB64, header, payload, hreads, Or.inl h⟩
      obtain ⟨checked, hchecked⟩ :=
        checkSignature_returns headerB64 payloadB64 signatureB64 hkeys hheader
      rw [verify_eq hreads, hchecked]
      cases checked with
      | error e => exact ⟨_, rfl⟩
      | ok _ =>
        have hsigned := checkSignature_ok_iff.mp hchecked
        refine checkPayload_returns fun h => ?_
        exact hnull ⟨headerB64, payloadB64, signatureB64, header, payload, hreads,
          Or.inr ⟨h, hsigned⟩⟩
    · exact ⟨_, hmalformed⟩

/-- A token is accepted when it is signed and its claims pass. -/
theorem verify_ok_iff {token : JsString} {r : Json} :
    verify node config keys now token = .ok (.ok r) ↔
      ∃ headerB64 payloadB64 signatureB64 header,
        Reads node token headerB64 payloadB64 signatureB64 header r ∧
          Signed node keys headerB64 payloadB64 signatureB64 header ∧ Passes config now r := by
  constructor
  · intro h
    rcases verify_cases config keys now token with hreads | hmalformed
    · obtain ⟨headerB64, payloadB64, signatureB64, header, payload, hreads⟩ := hreads
      rw [verify_eq hreads] at h
      split at h
      · cases h
      · cases h
      · next hchecked =>
        obtain ⟨rfl, hpasses⟩ := checkPayload_ok_iff.mp h
        exact ⟨headerB64, payloadB64, signatureB64, header, hreads,
          checkSignature_ok_iff.mp hchecked, hpasses⟩
    · rw [hmalformed] at h
      cases h
  · rintro ⟨headerB64, payloadB64, signatureB64, header, hreads, hsigned, hpasses⟩
    rw [verify_eq hreads, checkSignature_ok_iff.mpr hsigned]
    exact checkPayload_ok_iff.mpr ⟨rfl, hpasses⟩

/-! ## Issuance -/

variable (node) in
/-- `AccessTokenConfig`. -/
structure AccessTokenConfig where
  issuer : JsString
  audience : JsString
  ttlSeconds : node.numbers.Number
  ttl_finite : node.numbers.isFinite ttlSeconds = true

variable (node) in
/-- `AccessTokenClaims`. -/
structure AccessTokenClaims where
  sub : JsString
  sid : JsString
  org : Option JsString
  aal : node.numbers.Number
  authTime : Instant

structure ActiveKey where
  version : Nat
  kid : JsString

/-- `Signature`; the algorithm is always `EdDSA`. -/
structure Signature where
  kid : JsString
  value : JsString

variable (node) in
/-- `TokenSigner`: the key it takes for the active one, and a key and its id for each version. -/
structure TokenSigner where
  resolveActive : ActiveKey
  privateKey : Nat → node.crypto.PrivateKey
  kidFor : Nat → JsString

def TokenSigner.sign (signer : TokenSigner node) (payload : Bytes) (version : Nat) : Signature where
  kid := signer.kidFor version
  value := node.buffer.toBase64url (node.crypto.sign (signer.privateKey version) payload)

variable (node) in
/-- `IssuedAccessToken`; `expiresAt` is what is given to `new Date`. -/
structure IssuedAccessToken where
  token : JsString
  jti : JsString
  expiresAt : node.numbers.Number
  expiresInSeconds : node.numbers.Number

variable (node) in
def encodeSegment (value : Json) : JsString :=
  node.buffer.toBase64url (node.buffer.utf8 value.stringify)

def headerOf (kid : JsString) : Json :=
  .object [(ascii "alg", .string (ascii "EdDSA")), (ascii "typ", .string (ascii "JWT")),
    (ascii "kid", .string kid)]

/-- `claims.org ? { org: claims.org } : {}`. -/
def orgEntries : Option JsString → List (JsString × Json)
  | none => []
  | some [] => []
  | some org => [(ascii "org", .string org)]

/-- `iat`, in seconds. -/
def issuedAt (node : Node) (now : Instant) : node.numbers.Number :=
  node.numbers.ofInt (seconds now.ms)

def AccessTokenConfig.expiry (issuer : AccessTokenConfig node) (now : Instant) :
    node.numbers.Number :=
  node.numbers.add (issuedAt node now) issuer.ttlSeconds

def payloadOf (issuer : AccessTokenConfig node) (claims : AccessTokenClaims node) (jti : JsString)
    (now : Instant) : Json :=
  .object ([(ascii "iss", .string issuer.issuer), (ascii "aud", .string issuer.audience),
      (ascii "sub", .string claims.sub), (ascii "sid", .string claims.sid)] ++
    orgEntries claims.org ++
    [(ascii "jti", .string jti), (ascii "aal", node.numbers.json claims.aal),
      (ascii "auth_time", node.numbers.json (node.numbers.ofInt (seconds claims.authTime.ms))),
      (ascii "iat", node.numbers.json (issuedAt node now)),
      (ascii "nbf", node.numbers.json (issuedAt node now)),
      (ascii "exp", node.numbers.json (issuer.expiry now))])

/-- `issue`; `none` is the exception when the signing key has rotated meanwhile. -/
def issue (signer : TokenSigner node) (issuer : AccessTokenConfig node)
    (claims : AccessTokenClaims node) (jti : JsString) (now : Instant) :
    Option (IssuedAccessToken node) :=
  let active := signer.resolveActive
  let input := encodeSegment node (headerOf active.kid) ++
    46 :: encodeSegment node (payloadOf issuer claims jti now)
  let signature := signer.sign (node.buffer.utf8 input) active.version
  if signature.kid ≠ active.kid then none
  else some ⟨input ++ 46 :: signature.value, jti,
    node.numbers.mul (issuer.expiry now) (node.numbers.ofInt 1000), issuer.ttlSeconds⟩

/-! ## Issued tokens -/

theorem readable_json (x : node.numbers.Number) : Json.Readable (node.numbers.json x) := by
  unfold Doubles.json
  split_ifs with hfinite
  · exact .number (node.numbers.isNumberText_toText x hfinite)
  · exact .null

theorem numberOf_json {x : node.numbers.Number} (h : node.numbers.isFinite x = true) :
    numberOf (some (node.numbers.json x)) = some (node.numbers.toText x) := by
  rw [Doubles.json, if_pos h, numberOf]

theorem readable_headerOf (kid : JsString) : Json.Readable (headerOf kid) := by
  have hkeys : [ascii "alg", ascii "typ", ascii "kid"].Nodup := by decide
  refine .object hkeys ?_
  simp only [List.forall_mem_cons]
  exact ⟨.string _, .string _, .string _, fun _ h => absurd h List.not_mem_nil⟩

theorem readable_payloadOf (issuer : AccessTokenConfig node) (claims : AccessTokenClaims node)
    (jti : JsString) (now : Instant) : Json.Readable (payloadOf issuer claims jti now) := by
  have horg : ∀ e ∈ orgEntries claims.org, Json.Readable e.2 := by
    intro e he
    unfold orgEntries at he
    split at he
    · exact absurd he List.not_mem_nil
    · exact absurd he List.not_mem_nil
    · obtain rfl := List.mem_singleton.mp he
      exact .string _
  refine .object ?_ ?_
  · have hkeys : [ascii "iss", ascii "aud", ascii "sub", ascii "sid", ascii "org", ascii "jti",
        ascii "aal", ascii "auth_time", ascii "iat", ascii "nbf", ascii "exp"].Nodup := by decide
    have hwithout : [ascii "iss", ascii "aud", ascii "sub", ascii "sid", ascii "jti", ascii "aal",
        ascii "auth_time", ascii "iat", ascii "nbf", ascii "exp"].Nodup := by decide
    unfold orgEntries
    split
    · exact hwithout
    · exact hwithout
    · exact hkeys
  · simp only [List.forall_mem_append, List.forall_mem_cons]
    have hnil : ∀ e ∈ ([] : List (JsString × Json)), Json.Readable e.2 :=
      fun _ h => absurd h List.not_mem_nil
    exact ⟨⟨⟨.string _, .string _, .string _, .string _, hnil⟩, horg⟩, .string _,
      readable_json _, readable_json _, readable_json _, readable_json _, readable_json _, hnil⟩

/-- A written segment is read back. -/
theorem decodeSegment_encodeSegment {value : Json} (h : value.Readable) :
    decodeSegment node (encodeSegment node value) = some value := by
  rw [decodeSegment, encodeSegment, node.buffer.fromBase64url_toBase64url,
    node.buffer.toUtf8_utf8 _ (Json.wellFormed_stringify value), Json.parse_stringify h]

section Fields

variable (issuer : AccessTokenConfig node) (claims : AccessTokenClaims node) (jti : JsString)
  (now : Instant)

theorem field_iss :
    field "iss" (payloadOf issuer claims jti now) = some (.string issuer.issuer) := by
  rfl

theorem field_aud :
    field "aud" (payloadOf issuer claims jti now) = some (.string issuer.audience) := by
  rfl

theorem field_nbf :
    field "nbf" (payloadOf issuer claims jti now) =
      some (node.numbers.json (issuedAt node now)) := by
  unfold payloadOf orgEntries
  split <;> rfl

theorem field_exp :
    field "exp" (payloadOf issuer claims jti now) =
      some (node.numbers.json (issuer.expiry now)) := by
  unfold payloadOf orgEntries
  split <;> rfl

end Fields

/-- The set has this key under this id, and no other. -/
def KeySet.Has (keys : KeySet) (kid : JsString) (publicKey : node.crypto.PublicKey) : Prop :=
  (∃ jwk ∈ keys.jwks ++ keys.refreshed, jwk.kid = kid) ∧
    ∀ jwk ∈ keys.jwks ++ keys.refreshed, jwk.kid = kid →
      jwk.alg = ascii "EdDSA" ∧ node.crypto.createPublicKey jwk = some publicKey

theorem KeySet.find_isSome {kid : JsString} {jwk : Jwk}
    (h : jwk ∈ keys.jwks ++ keys.refreshed) (hkid : jwk.kid = kid) :
    ∃ found, keys.find kid = some found := by
  have hfound : ∀ jwks : List Jwk, jwk ∈ jwks → (jwks.find? (·.kid == kid)).isSome = true := by
    intro jwks hmem
    exact List.find?_isSome.mpr ⟨jwk, hmem, by simpa using hkid⟩
  apply Option.isSome_iff_exists.mp
  rw [KeySet.find, Option.isSome_or, Bool.or_eq_true]
  rcases List.mem_append.mp h with hcached | hfresh
  · exact Or.inl (hfound _ hcached)
  · exact Or.inr (hfound _ hfresh)

section Issued

variable {signer : TokenSigner node} {issuer : AccessTokenConfig node}
  {claims : AccessTokenClaims node} {jti : JsString} {issueTime : Instant}
  {issued : IssuedAccessToken node}

/-- The private key that `issue` signs with. -/
def TokenSigner.activeKey (signer : TokenSigner node) : node.crypto.PrivateKey :=
  signer.privateKey signer.resolveActive.version

theorem splitOn_segments {headerB64 payloadB64 signatureB64 : JsString}
    (hheader : (46 : CodeUnit) ∉ headerB64) (hpayload : (46 : CodeUnit) ∉ payloadB64)
    (hsignature : (46 : CodeUnit) ∉ signatureB64) :
    ((headerB64 ++ 46 :: payloadB64) ++ 46 :: signatureB64).splitOn 46 =
      [headerB64, payloadB64, signatureB64] := by
  rw [List.append_assoc, List.cons_append, List.splitOn_append_cons_self_of_not_mem hheader,
    List.splitOn_append_cons_self_of_not_mem hpayload, List.splitOn_eq_singleton hsignature]

/-- The segments of an issued token, and what they are read as. -/
theorem reads_issued (h : issue signer issuer claims jti issueTime = some issued) :
    ∃ signatureB64,
      Reads node issued.token (encodeSegment node (headerOf signer.resolveActive.kid))
        (encodeSegment node (payloadOf issuer claims jti issueTime)) signatureB64
        (headerOf signer.resolveActive.kid) (payloadOf issuer claims jti issueTime) ∧
      node.buffer.fromBase64url signatureB64 = node.crypto.sign signer.activeKey
        (signingInput node (encodeSegment node (headerOf signer.resolveActive.kid))
          (encodeSegment node (payloadOf issuer claims jti issueTime))) := by
  unfold issue at h
  simp only at h
  split_ifs at h with hkid
  obtain rfl := Option.some.inj h
  refine ⟨node.buffer.toBase64url (node.crypto.sign signer.activeKey (signingInput node
    (encodeSegment node (headerOf signer.resolveActive.kid))
    (encodeSegment node (payloadOf issuer claims jti issueTime)))), ⟨?_, ?_, ?_⟩, ?_⟩
  · exact splitOn_segments (node.buffer.dot_notMem _) (node.buffer.dot_notMem _)
      (node.buffer.dot_notMem _)
  · exact decodeSegment_encodeSegment (readable_headerOf _)
  · exact decodeSegment_encodeSegment (readable_payloadOf _ _ _ _)
  · exact node.buffer.fromBase64url_toBase64url _

/-- An issued token is signed, as long as its key is in the set. -/
theorem signed_issued {signatureB64 : JsString}
    (hkey : keys.Has signer.resolveActive.kid (node.crypto.publicKey signer.activeKey))
    (hsign : node.buffer.fromBase64url signatureB64 = node.crypto.sign signer.activeKey
      (signingInput node (encodeSegment node (headerOf signer.resolveActive.kid))
        (encodeSegment node (payloadOf issuer claims jti issueTime)))) :
    Signed node keys (encodeSegment node (headerOf signer.resolveActive.kid))
      (encodeSegment node (payloadOf issuer claims jti issueTime)) signatureB64
      (headerOf signer.resolveActive.kid) := by
  obtain ⟨⟨jwk, hjwk, hkid⟩, hall⟩ := hkey
  obtain ⟨found, hfound⟩ := KeySet.find_isSome hjwk hkid
  obtain ⟨hmem, hsame⟩ := KeySet.find_mem hfound
  obtain ⟨halg, hpublic⟩ := hall found hmem hsame
  refine ⟨rfl, signer.resolveActive.kid, found, signer.activeKey, rfl, hfound, halg, ?_, hpublic,
    hsign⟩
  rw [halg]
  rfl

/-- The claims of an issued token pass while its times are around the clock. -/
theorem passes_issued (hissuer : config.issuer = issuer.issuer)
    (haudience : config.audience = issuer.audience) :
    Passes config now (payloadOf issuer claims jti issueTime) ↔
      node.numbers.sub (issuedAt node issueTime) config.clockSkewSeconds ≤
          node.numbers.ofInt (seconds now.ms) ∧
        node.numbers.ofInt (seconds now.ms) <
          node.numbers.add (issuer.expiry issueTime) config.clockSkewSeconds := by
  have hiat : node.numbers.isFinite (issuedAt node issueTime) = true :=
    node.numbers.isFinite_ofInt _ issueTime.safe_seconds
  have hexp : node.numbers.isFinite (issuer.expiry issueTime) = true :=
    node.numbers.isFinite_add _ _ issueTime.safe_seconds issuer.ttl_finite
  have hnbfField : numberOf (field "nbf" (payloadOf issuer claims jti issueTime)) =
      some (node.numbers.toText (issuedAt node issueTime)) := by
    rw [field_nbf, numberOf_json hiat]
  have hexpField : numberOf (field "exp" (payloadOf issuer claims jti issueTime)) =
      some (node.numbers.toText (issuer.expiry issueTime)) := by
    rw [field_exp, numberOf_json hexp]
  constructor
  · intro h
    obtain ⟨exp, hsome, hlt⟩ := h.exp
    rw [hexpField] at hsome
    obtain rfl := Option.some.inj hsome
    have hle := h.nbf _ hnbfField
    rw [node.numbers.ofText_toText _ hexp] at hlt
    rw [node.numbers.ofText_toText _ hiat] at hle
    exact ⟨hle, hlt⟩
  · rintro ⟨hle, hlt⟩
    refine ⟨?_, ?_, ⟨_, hexpField, ?_⟩, ?_⟩
    · rw [field_iss, textOf, hissuer]
    · rw [field_aud, audienceMatches, haudience]
      exact beq_self_eq_true _
    · rw [node.numbers.ofText_toText _ hexp]
      exact hlt
    · intro nbf hsome
      rw [hnbfField] at hsome
      obtain rfl := Option.some.inj hsome
      rw [node.numbers.ofText_toText _ hiat]
      exact hle

variable (now) in
/-- An issued token is accepted exactly between its times, with the skew on both sides. -/
theorem verify_issued_iff (hissued : issue signer issuer claims jti issueTime = some issued)
    (hkey : keys.Has signer.resolveActive.kid (node.crypto.publicKey signer.activeKey))
    (hissuer : config.issuer = issuer.issuer) (haudience : config.audience = issuer.audience) :
    (∃ r, verify node config keys now issued.token = .ok (.ok r)) ↔
      node.numbers.sub (issuedAt node issueTime) config.clockSkewSeconds ≤
          node.numbers.ofInt (seconds now.ms) ∧
        node.numbers.ofInt (seconds now.ms) <
          node.numbers.add (issuer.expiry issueTime) config.clockSkewSeconds := by
  obtain ⟨signatureB64, hreads, hsign⟩ := reads_issued hissued
  have hchecked := checkSignature_ok_iff.mpr (signed_issued hkey hsign)
  rw [← passes_issued hissuer haudience, verify_eq hreads, hchecked]
  constructor
  · rintro ⟨r, hr⟩
    exact (checkPayload_ok_iff.mp hr).2
  · intro hpasses
    exact ⟨_, checkPayload_ok_iff.mpr ⟨rfl, hpasses⟩⟩

/-- As long as the sums are exact, the times are compared as integers. -/
theorem within_iff {iat ttl skew t : Int} (hiat : Safe iat) (httl : Safe ttl) (hskew : Safe skew)
    (ht : Safe t) (hnbf : Safe (iat - skew)) (hexp : Safe (iat + ttl))
    (hend : Safe (iat + ttl + skew)) :
    (node.numbers.sub (node.numbers.ofInt iat) (node.numbers.ofInt skew) ≤ node.numbers.ofInt t ∧
      node.numbers.ofInt t < node.numbers.add
        (node.numbers.add (node.numbers.ofInt iat) (node.numbers.ofInt ttl))
        (node.numbers.ofInt skew)) ↔
      iat - skew ≤ t ∧ t < iat + ttl + skew := by
  rw [node.numbers.sub_ofInt _ _ hiat hskew hnbf, node.numbers.add_ofInt _ _ hiat httl hexp,
    node.numbers.add_ofInt _ _ hexp hskew hend, node.numbers.ofInt_le_ofInt _ _ hnbf ht,
    ← not_le, node.numbers.ofInt_le_ofInt _ _ hend ht, not_le]

end Issued

end Verifier

/-! ## A Node to run things with -/

/-- The base64url alphabet of RFC 4648. -/
def rfc4648Base64url : BitText.Alphabet CodeUnit 6 where
  symbols := (List.range 26).map (fun i => Fin.ofNat 65536 (65 + i)) ++
    (List.range 26).map (fun i => Fin.ofNat 65536 (97 + i)) ++
    (List.range 10).map (fun i => Fin.ofNat 65536 (48 + i)) ++ [45, 95]
  length_eq := by decide
  nodup := by decide

/-- An ASCII unit is one byte; any other unit is marked and takes two more. -/
def unitBytes (u : CodeUnit) : Bytes :=
  if u.val < 128 then [BitVec.ofNat 8 u.val]
  else [255, BitVec.ofNat 8 (u.val / 256), BitVec.ofNat 8 (u.val % 256)]

def bytesUnits : Bytes → JsString
  | [] => []
  | b :: rest =>
    if b.toNat < 128 then Fin.ofNat 65536 b.toNat :: bytesUnits rest
    else match rest with
      | high :: low :: rest => Fin.ofNat 65536 (high.toNat * 256 + low.toNat) :: bytesUnits rest
      | _ => []

theorem bytesUnits_ascii {b : BitVec 8} (h : b.toNat < 128) (rest : Bytes) :
    bytesUnits (b :: rest) = Fin.ofNat 65536 b.toNat :: bytesUnits rest := by
  rw [bytesUnits.eq_def]
  simp only [if_pos h]

theorem bytesUnits_flatMap (text : JsString) : bytesUnits (text.flatMap unitBytes) = text := by
  induction text with
  | nil => rfl
  | cons u text ih =>
    have hu : u.val < 65536 := u.isLt
    rw [List.flatMap_cons, unitBytes]
    split_ifs with hascii
    · have hbyte : (BitVec.ofNat 8 u.val).toNat = u.val := by
        rw [BitVec.toNat_ofNat]
        exact Nat.mod_eq_of_lt (by omega)
      have hback : Fin.ofNat 65536 u.val = u := Fin.ext (Nat.mod_eq_of_lt hu)
      have hsmall : (BitVec.ofNat 8 u.val).toNat < 128 := by omega
      rw [List.singleton_append, bytesUnits_ascii hsmall, hbyte, hback, ih]
    · have hhigh : (BitVec.ofNat 8 (u.val / 256)).toNat = u.val / 256 := by
        rw [BitVec.toNat_ofNat]
        exact Nat.mod_eq_of_lt (by omega)
      have hlow : (BitVec.ofNat 8 (u.val % 256)).toNat = u.val % 256 := by
        rw [BitVec.toNat_ofNat]
        exact Nat.mod_eq_of_lt (by omega)
      have hsum : u.val / 256 * 256 + u.val % 256 = u.val := by omega
      have hback : Fin.ofNat 65536 u.val = u := Fin.ext (Nat.mod_eq_of_lt hu)
      have hmark : ¬ (255 : BitVec 8).toNat < 128 := by decide
      rw [List.cons_append, List.cons_append, List.singleton_append, bytesUnits, if_neg hmark]
      simp only [hhigh, hlow, hsum, hback, ih]

/-- Decoding undoes encoding. -/
theorem decode_text (bytes : Bytes) :
    BitText.decode 8 ((rfc4648Base64url.text bytes).filterMap rfc4648Base64url.digit) = bytes := by
  have hdigits : ∀ ds : List (BitVec 6),
      (ds.map rfc4648Base64url.symbol).filterMap rfc4648Base64url.digit = ds := by
    intro ds
    induction ds with
    | nil => rfl
    | cons d ds ih =>
      rw [List.map_cons, List.filterMap_cons_some (rfc4648Base64url.digit_symbol d), ih]
  rw [BitText.Alphabet.text, hdigits, BitText.decode_encode (by omega) (by omega)]

/-- `Buffer`, exact on ASCII texts. -/
def asciiBuffer : Buffer where
  utf8 text := text.flatMap unitBytes
  toUtf8 := bytesUnits
  toBase64url := rfc4648Base64url.text
  fromBase64url text := BitText.decode 8 (text.filterMap rfc4648Base64url.digit)
  toUtf8_utf8 text _ := bytesUnits_flatMap text
  fromBase64url_toBase64url := decode_text
  dot_notMem bytes h := by
    obtain ⟨d, -, hd⟩ := List.mem_map.mp h
    have hmem : rfc4648Base64url.symbol d ∈ rfc4648Base64url.symbols := List.get_mem _ _
    rw [hd] at hmem
    exact absurd hmem (by decide)

/-- Numbers that are integers. -/
def intDoubles : Doubles where
  Number := Int
  ofInt n := n
  add x y := x + y
  sub x y := x - y
  mul x y := x * y
  isFinite _ := true
  ofText := JsonNumber.toInt
  toText := JsonNumber.ofInt
  ofText_toText x _ := JsonNumber.toInt_ofInt x
  isNumberText_toText x _ := JsonNumber.isNumberText_intText x
  isFinite_ofInt _ _ := rfl
  isFinite_add _ _ _ _ := rfl
  add_ofInt _ _ _ _ _ := rfl
  sub_ofInt _ _ _ _ _ := rfl
  ofInt_le_ofInt _ _ _ _ := Iff.rfl

/-- A signature is the byte of the key before the message. -/
def byteEd25519 : Ed25519 where
  PrivateKey := BitVec 8
  PublicKey := BitVec 8
  publicKey key := key
  sign key message := key :: message
  verify key message signature := signature == key :: message
  createPublicKey jwk := (asciiBuffer.fromBase64url jwk.x).head?
  verify_iff key message signature := by
    constructor
    · intro h
      exact ⟨key, rfl, by simpa using h⟩
    · rintro ⟨_, rfl, rfl⟩
      exact beq_self_eq_true _

def testNode : Node := ⟨asciiBuffer, intDoubles, byteEd25519⟩

/-! ## Totality and issuance -/

/-- What holds of an accepted token: it is signed, and issuer and audience are the verifier's. -/
def Trusted (node : Node) (config : JwtVerifierConfig node) (keys : KeySet) (token : JsString)
    (payload : Json) : Prop :=
  ∃ headerB64 payloadB64 signatureB64 header,
    Reads node token headerB64 payloadB64 signatureB64 header payload ∧
      Signed node keys headerB64 payloadB64 signatureB64 header ∧
      textOf (field "iss" payload) = some config.issuer ∧
      audienceMatches config.audience (field "aud" payload) = true

/-- **Verification is total but for `null`**: it returns, and accepts only trusted tokens, unless a
property of `null` is read.  An issued token is accepted exactly between its times. -/
theorem verify_total_iff (node : Node) (config : JwtVerifierConfig node) (keys : KeySet)
    (hkeys : keys.WellFormed node) (now : Instant) (token : JsString) :
    (((∃ r, verify node config keys now token = .ok r) ∧
        ∀ payload, verify node config keys now token = .ok (.ok payload) →
          Trusted node config keys token payload) ↔
      ¬ ReadsNull node keys token) ∧
    ∀ (signer : TokenSigner node) (issuer : AccessTokenConfig node)
      (claims : AccessTokenClaims node) (jti : JsString) (issueTime : Instant)
      (issued : IssuedAccessToken node),
      issue signer issuer claims jti issueTime = some issued →
      config.issuer = issuer.issuer → config.audience = issuer.audience →
      keys.Has signer.resolveActive.kid (node.crypto.publicKey signer.activeKey) →
      ((∃ payload, verify node config keys now issued.token = .ok (.ok payload)) ↔
        node.numbers.sub (issuedAt node issueTime) config.clockSkewSeconds ≤
            node.numbers.ofInt (seconds now.ms) ∧
          node.numbers.ofInt (seconds now.ms) <
            node.numbers.add (issuer.expiry issueTime) config.clockSkewSeconds) ∧
      ∀ ttl skew : Int, issuer.ttlSeconds = node.numbers.ofInt ttl →
        config.clockSkewSeconds = node.numbers.ofInt skew → Safe ttl → Safe skew →
        Safe (seconds issueTime.ms - skew) → Safe (seconds issueTime.ms + ttl) →
        Safe (seconds issueTime.ms + ttl + skew) →
        ((∃ payload, verify node config keys now issued.token = .ok (.ok payload)) ↔
          seconds issueTime.ms - skew ≤ seconds now.ms ∧
            seconds now.ms < seconds issueTime.ms + ttl + skew) := by
  constructor
  · rw [← verify_returns_iff config now hkeys token]
    constructor
    · exact And.left
    · intro hreturns
      refine ⟨hreturns, fun payload h => ?_⟩
      obtain ⟨headerB64, payloadB64, signatureB64, header, hreads, hsigned, hpasses⟩ :=
        verify_ok_iff.mp h
      exact ⟨headerB64, payloadB64, signatureB64, header, hreads, hsigned, hpasses.iss,
        hpasses.aud⟩
  · intro signer issuer claims jti issueTime issued hissued hissuer haudience hkey
    have haccepted := verify_issued_iff now hissued hkey hissuer haudience
    refine ⟨haccepted, ?_⟩
    intro ttl skew httl hskew hsafeTtl hsafeSkew hnbf hexp hend
    rw [haccepted, AccessTokenConfig.expiry, httl, hskew]
    exact within_iff issueTime.safe_seconds hsafeTtl hsafeSkew now.safe_seconds hnbf hexp hend

def testConfig : JwtVerifierConfig testNode := ⟨ascii "issuer", ascii "audience", (30 : Int)⟩

def testIssuer : AccessTokenConfig testNode :=
  ⟨ascii "issuer", ascii "audience", (900 : Int), rfl⟩

def testClaims : AccessTokenClaims testNode :=
  ⟨ascii "user", ascii "session", none, (1 : Int), ⟨0, by decide⟩⟩

def testSigner : TokenSigner testNode :=
  ⟨⟨1, ascii "key-1"⟩, fun _ => (1 : BitVec 8), fun _ => ascii "key-1"⟩

def testKeys : KeySet := ⟨[⟨ascii "AQ", ascii "key-1", ascii "EdDSA"⟩], []⟩

theorem wellFormed_testKeys : testKeys.WellFormed testNode := by
  intro jwk hjwk
  obtain rfl := List.mem_singleton.mp hjwk
  exact ⟨(1 : BitVec 8), rfl⟩

theorem has_testKeys : testKeys.Has testSigner.resolveActive.kid
    (testNode.crypto.publicKey testSigner.activeKey) := by
  constructor
  · exact ⟨_, List.mem_singleton.mpr rfl, rfl⟩
  · intro jwk hjwk _
    obtain rfl := List.mem_singleton.mp hjwk
    exact ⟨rfl, rfl⟩

/-- An issued token is accepted in the second it was issued. -/
theorem verify_total_iff_testNode :
    (∃ r, verify testNode testConfig testKeys ⟨0, by decide⟩ (ascii "a.b") = .ok r) ∧
      ∃ issued, issue testSigner testIssuer testClaims (ascii "id") ⟨0, by decide⟩ = some issued ∧
        ∃ payload, verify testNode testConfig testKeys ⟨0, by decide⟩ issued.token =
          .ok (.ok payload) := by
  have htwo : ¬ ReadsNull testNode testKeys (ascii "a.b") := by
    rintro ⟨headerB64, payloadB64, signatureB64, header, payload, ⟨hsplit, -⟩, -⟩
    have hsegments : (ascii "a.b").splitOn 46 = [[97], [98]] := by decide
    rw [hsegments] at hsplit
    cases hsplit
  obtain ⟨htotal, hissued⟩ := verify_total_iff testNode testConfig testKeys wellFormed_testKeys
    ⟨0, by decide⟩ (ascii "a.b")
  refine ⟨(htotal.mpr htwo).1, _, rfl, ?_⟩
  refine (hissued testSigner testIssuer testClaims (ascii "id") ⟨0, by decide⟩ _ rfl rfl rfl
    has_testKeys).1.mpr ?_
  constructor
  · show (0 : Int) - 30 ≤ 0
    decide
  · show (0 : Int) < 0 + 900 + 30
    decide

/-- The token whose header and payload are the JSON text `null`. -/
def nullToken : JsString := ascii "bnVsbA.bnVsbA."

/-- Reading the `typ` of that header throws. -/
theorem verify_nullToken :
    verify testNode testConfig testKeys ⟨0, by decide⟩ nullToken = .error .typeError ∧
      ¬ ∃ r, verify testNode testConfig testKeys ⟨0, by decide⟩ nullToken = .ok r := by
  have hreads : Reads testNode nullToken (ascii "bnVsbA") (ascii "bnVsbA") [] .null .null :=
    ⟨by decide, rfl, rfl⟩
  have hthrows : verify testNode testConfig testKeys ⟨0, by decide⟩ nullToken =
      .error .typeError := by
    rw [verify_eq hreads, checkSignature_null]
  refine ⟨hthrows, ?_⟩
  rintro ⟨r, hr⟩
  rw [hthrows] at hr
  cases hr

end TokenText

end AccessCore
