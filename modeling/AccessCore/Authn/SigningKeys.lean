/-
  The lifecycle of the signing keys (`authn/application/signing-keys.ts`,
  `authn/infrastructure/persistence/app-meta-signing-key-state.repository.ts`) and the issuer that
  signs with the active one (`authn/infrastructure/tokens/jwt-access-token-issuer.ts`).

  The service works on two stores, the signer and the state document, one request at a time and
  without a transaction, so its methods are programs over the operations of the two.

  The active version is the pinned one, or the signer's latest when none is pinned.  `rotate`
  pins the version that was active, but only after the signer has made the new one.  With a pin in
  place before, the active version never moves (`rotate_keeps_active`); without one, every reader
  between the two steps takes the new version for the active one.
-/
import AccessCore.Lib.Interleave
import AccessCore.Authn.Tokens

namespace AccessCore

open Interleave

/-! ## The stores -/

structure RetiringKey where
  version : Nat
  drainUntilMs : Int
deriving DecidableEq, Repr

structure SigningKeyStateDoc where
  pinnedVersion : Option Nat
  retiring : List RetiringKey
deriving DecidableEq, Repr

/-- The signer's versions, the row of the state document, and the clock. -/
structure KeyStore where
  latest : Nat
  minDecryption : Nat
  row : Option SigningKeyStateDoc
  nowMs : Int
deriving DecidableEq, Repr

inductive KeyOp where
  | readState
  | writeState (doc : SigningKeyStateDoc)
  | latestVersion
  | rotateKey
  | setMinDecryptionVersion (version : Nat)
  | sign (input : SigningInput) (version : Nat)
  | now

/-- A signature is refused, as an error response, for a version that is not available. -/
def KeyOp.Answer : KeyOp → Type
  | readState => SigningKeyStateDoc
  | writeState _ => Unit
  | latestVersion => Nat
  | rotateKey => Unit
  | setMinDecryptionVersion _ => Unit
  | sign _ _ => Option Signature
  | now => Int

namespace KeyStore

/-- `AppMetaSigningKeyState.read`: the document, empty when there is no row. -/
def document (store : KeyStore) : SigningKeyStateDoc := store.row.getD ⟨none, []⟩

/-- What the operations do: versions are numbered consecutively. -/
def exec (scheme : SignatureScheme) (keyName : String) :
    (op : KeyOp) → KeyStore → KeyStore × op.Answer
  | .readState, store => (store, store.document)
  | .writeState doc, store => ({ store with row := some doc }, ())
  | .latestVersion, store => (store, store.latest)
  | .rotateKey, store => ({ store with latest := store.latest + 1 }, ())
  | .setMinDecryptionVersion version, store => ({ store with minDecryption := version }, ())
  | .sign input version, store =>
    (store, if store.minDecryption ≤ version ∧ version ≤ store.latest then
      some ⟨kidFor keyName version, scheme.sign version input⟩ else none)
  | .now, store => (store, store.nowMs)

/-- The version `resolveActive` finds when nothing else happens. -/
def activeVersion (store : KeyStore) : Nat := store.document.pinnedVersion.getD store.latest

/-- `VaultTransitSigner.publicKeys`: the versions from the minimum to the latest, latest first. -/
def publicKeys (scheme : SignatureScheme) (keyName : String) (store : KeyStore) :
    List PublicKey :=
  ((List.range (store.latest + 1)).filter (store.minDecryption ≤ ·)).reverse.map fun version =>
    ⟨kidFor keyName version, "EdDSA", scheme.key version, version⟩

end KeyStore

/-! ## The programs -/

abbrev KeyProc (α : Type) := Proc KeyOp KeyOp.Answer α

namespace SigningKeyState

def read : KeyProc SigningKeyStateDoc := .ask KeyOp.readState
def write (doc : SigningKeyStateDoc) : KeyProc Unit := .ask (KeyOp.writeState doc)

end SigningKeyState

namespace Signer

def latestVersion : KeyProc Nat := .ask KeyOp.latestVersion
def rotate : KeyProc Unit := .ask KeyOp.rotateKey
def setMinDecryptionVersion (version : Nat) : KeyProc Unit :=
  .ask (KeyOp.setMinDecryptionVersion version)
def sign (input : SigningInput) (version : Nat) : KeyProc (Option Signature) :=
  .ask (KeyOp.sign input version)

end Signer

/-- `Clock.now`. -/
def KeyProc.now : KeyProc Int := .ask KeyOp.now

structure ActiveKey where
  version : Nat
  kid : String
deriving DecidableEq, Repr

structure SigningKeysConfig where
  accessTokenTtlSeconds : Nat

namespace SigningKeyService

variable (keyName : String) (config : SigningKeysConfig)

/-- `doc.pinnedVersion ?? (await this.signer.latestVersion())`. -/
def pinnedOrLatest (doc : SigningKeyStateDoc) : KeyProc Nat :=
  match doc.pinnedVersion with
  | some version => return version
  | none => Signer.latestVersion

def resolveActive : KeyProc ActiveKey := do
  let doc ← SigningKeyState.read
  let version ← pinnedOrLatest doc
  return ⟨version, kidFor keyName version⟩

def rotate : KeyProc Unit := do
  let active ← resolveActive keyName
  Signer.rotate
  let doc ← SigningKeyState.read
  SigningKeyState.write { doc with pinnedVersion := some active.version }

def promote : KeyProc Unit := do
  let doc ← SigningKeyState.read
  let previous ← pinnedOrLatest doc
  let latest ← Signer.latestVersion
  if latest ≤ previous then
    SigningKeyState.write { doc with pinnedVersion := none }
  else do
    let nowMs ← KeyProc.now
    let drainUntilMs := nowMs + config.accessTokenTtlSeconds * 1000
    SigningKeyState.write
      ⟨none, doc.retiring.filter (·.version ≠ previous) ++ [⟨previous, drainUntilMs⟩]⟩

/-- `Math.max(...versions) + 1`. -/
def retireTarget (drained : List RetiringKey) : Nat := (drained.map (·.version)).foldr max 0 + 1

def retire : KeyProc (List Nat) := do
  let doc ← SigningKeyState.read
  let nowMs ← KeyProc.now
  let drained := doc.retiring.filter (·.drainUntilMs ≤ nowMs)
  if drained = [] then return []
  else do
    Signer.setMinDecryptionVersion (retireTarget drained)
    SigningKeyState.write { doc with retiring := doc.retiring.filter (·.drainUntilMs > nowMs) }
    return drained.map (·.version)

end SigningKeyService

/-- `JwtAccessTokenIssuer.issue`, with the random `jti` it draws. -/
def JwtAccessTokenIssuer.issue (keyName : String) (config : AccessTokenConfig)
    (claims : AccessTokenClaims) (jti : String) : KeyProc IssuedAccessToken := do
  let nowMs ← KeyProc.now
  let active ← SigningKeyService.resolveActive keyName
  let header : JwtHeader := ⟨some "EdDSA", some "JWT", some active.kid⟩
  let payload := payloadOf config claims jti nowMs
  match ← Signer.sign (header, payload) active.version with
  | none => .thrown "Vault request POST failed"
  | some signature =>
    if signature.kid ≠ active.kid then .thrown "signing key rotated during issuance"
    else return ⟨⟨header, payload, signature.value⟩, jti,
      (seconds nowMs + config.ttlSeconds) * 1000, config.ttlSeconds⟩

/-! ## Rotation against readers -/

inductive KeyCommand where
  | rotate
  | resolveActive
  | issue (claims : AccessTokenClaims) (jti : String)

inductive KeyResult where
  | rotated
  | resolved (key : ActiveKey)
  | issued (token : IssuedAccessToken)
deriving DecidableEq

section Rotation

variable (scheme : SignatureScheme) (keyName : String) (config : AccessTokenConfig)

/-- Calls of `rotate`, `resolveActive` and `issue`, while the clock goes on. -/
def keyMachine : Machine KeyCommand Nat KeyOp KeyOp.Answer KeyStore KeyResult where
  exec _ := KeyStore.exec scheme keyName
  event elapsed store := { store with nowMs := store.nowMs + elapsed }
  program
    | .rotate => do
      SigningKeyService.rotate keyName
      return .rotated
    | .resolveActive => do
      let key ← SigningKeyService.resolveActive keyName
      return .resolved key
    | .issue claims jti => do
      let token ← JwtAccessTokenIssuer.issue keyName config claims jti
      return .issued token

/-- The run of one `rotate` from a state, with the moves of readers. -/
def rotating (store : KeyStore) (moves : List (Move KeyCommand Nat)) :
    System KeyCommand KeyOp KeyOp.Answer KeyStore KeyResult :=
  (keyMachine scheme keyName config).run ⟨⟨store, []⟩, []⟩ (.start .rotate :: moves)

/-- A result names the version as the active one. -/
def KeyResult.Names (version : Nat) : KeyResult → Prop
  | .rotated => True
  | .resolved key => key = ⟨version, kidFor keyName version⟩
  | .issued token => token.token.header.kid = some (kidFor keyName version)

variable {scheme keyName config}

/-- With a pin in place, `resolveActive` returns it. -/
theorem safe_resolveActive {v i : Nat} {Post : ActiveKey → World KeyOp KeyStore → Prop}
    {w : World KeyOp KeyStore}
    (h : ∀ w', w'.state.document.pinnedVersion = some v →
      Post ⟨v, kidFor keyName v⟩ w') :
    Safe (keyMachine scheme keyName config) Conduct.free
      (fun w => w.state.document.pinnedVersion = some v) (fun _ _ => True) i Post
      (SigningKeyService.resolveActive keyName) w := by
  intro w' hpin _ _ _
  refine ⟨hpin, trivial, ?_⟩
  have hread : SigningKeyService.pinnedOrLatest w'.state.document = .done v := by
    rw [SigningKeyService.pinnedOrLatest, hpin]
    rfl
  show Safe _ _ _ _ i Post (SigningKeyService.pinnedOrLatest w'.state.document >>= _) _
  rw [hread]
  exact h _ hpin

/-- The outline: the pin stays, and every result names it. -/
def pinned (scheme : SignatureScheme) (keyName : String) (config : AccessTokenConfig) (v : Nat) :
    Outline (keyMachine scheme keyName config) Conduct.free where
  Inv w := w.state.document.pinnedVersion = some v
  Rely _ _ := True
  refl _ := trivial
  trans _ _ := trivial
  happen _ _ h _ := ⟨h, trivial⟩
  Post _ _ _ result _ := result.Names keyName v
  safe command i w hw _ _ := by
    cases command with
    | rotate =>
      show Safe _ _ _ _ i _ (SigningKeyService.rotate keyName >>= _) w
      rw [SigningKeyService.rotate, Proc.bind_assoc, safe_bind]
      apply safe_resolveActive
      intro w₁ _ w₂ hpin _ _ _
      refine ⟨hpin, trivial, ?_⟩
      -- the signer has the new version, and the document is read again
      intro w₃ hpin _ _ _
      refine ⟨hpin, trivial, ?_⟩
      intro w₄ hpin _ _ _
      exact ⟨rfl, trivial, trivial⟩
    | resolveActive =>
      show Safe _ _ _ _ i _ (SigningKeyService.resolveActive keyName >>= _) w
      rw [safe_bind]
      exact safe_resolveActive fun _ _ => rfl
    | issue claims jti =>
      intro w₁ hpin _ _ _
      refine ⟨hpin, trivial, ?_⟩
      show Safe _ _ _ _ i _ ((SigningKeyService.resolveActive keyName >>= _) >>= _) _
      rw [Proc.bind_assoc, safe_bind]
      apply safe_resolveActive
      intro w₂ _ w₃ hpin _ _ _
      refine ⟨hpin, trivial, ?_⟩
      show Safe _ _ _ _ i _ ((match (if _ then _ else none : Option Signature) with
        | none => _
        | some signature => _) >>= _) _
      split_ifs with havailable
      · show Safe _ _ _ _ i _ ((if _ then _ else _) >>= _) _
        split_ifs with hkid
        · trivial
        · rfl
      · trivial

variable (scheme keyName config) in
/-- However the readers' steps fall between those of one `rotate`, and wherever it stops, every
    result names the version that was active before. -/
def KeepsActive (store : KeyStore) : Prop :=
  ∀ moves : List (Move KeyCommand Nat), (∀ move ∈ moves, move ≠ .start .rotate) →
    ∀ call ∈ (rotating scheme keyName config store moves).calls, ∀ result,
      call.result = some result → result.Names keyName store.activeVersion

theorem keepsActive_of_pinned {store : KeyStore} {v : Nat}
    (h : store.document.pinnedVersion = some v) : KeepsActive scheme keyName config store := by
  intro moves _ call hcall result hresult
  have hactive : store.activeVersion = v := by simp [KeyStore.activeVersion, h]
  rw [hactive]
  obtain ⟨i, hi⟩ := List.mem_iff_getElem?.mp hcall
  have hinit : (pinned scheme keyName config v).Good ⟨⟨store, []⟩, []⟩ := Outline.Good.init h rfl
  have hgood := (hinit.run (Machine.along_free _ (.start .rotate :: moves))).1
  obtain ⟨_, _, _, _, hpost⟩ := hgood.returned hi hresult
  exact hpost

/-- Without a pin, a reader after the signer's step takes the new version for the active one. -/
theorem not_keepsActive_of_unpinned {store : KeyStore}
    (h : store.document.pinnedVersion = none) : ¬ KeepsActive scheme keyName config store := by
  obtain ⟨latest, minDecryption, row, nowMs⟩ := store
  intro hkeeps
  let moves : List (Move KeyCommand Nat) :=
    [.run 0, .run 0, .run 0, .start .resolveActive, .run 1, .run 1]
  have hmoves : ∀ move ∈ moves, move ≠ .start .rotate := by
    intro move hmove
    simp only [moves, List.mem_cons, List.not_mem_nil, or_false] at hmove
    rcases hmove with rfl | rfl | rfl | rfl | rfl | rfl <;> exact fun heq => by cases heq
  have hresolved : ∃ call ∈ (rotating scheme keyName config ⟨latest, minDecryption, row, nowMs⟩
      moves).calls, call.result = some (.resolved ⟨latest + 1, kidFor keyName (latest + 1)⟩) := by
    cases row with
    | none => exact ⟨_, List.mem_cons_of_mem _ (List.mem_singleton_self _), rfl⟩
    | some doc =>
      obtain ⟨pinnedVersion, retiring⟩ := doc
      obtain rfl : pinnedVersion = none := h
      exact ⟨_, List.mem_cons_of_mem _ (List.mem_singleton_self _), rfl⟩
  obtain ⟨call, hcall, hresult⟩ := hresolved
  have hnames := hkeeps moves hmoves call hcall _ hresult
  have hactive : KeyStore.activeVersion ⟨latest, minDecryption, row, nowMs⟩ = latest := by
    simp [KeyStore.activeVersion, h]
  have hversion := congrArg ActiveKey.version hnames
  simp only [hactive] at hversion
  omega

/-- One `rotate` against any readers: the active version stays exactly when one was pinned. -/
theorem rotate_keeps_active (scheme : SignatureScheme) (keyName : String)
    (config : AccessTokenConfig) (store : KeyStore) :
    KeepsActive scheme keyName config store ↔ store.document.pinnedVersion ≠ none := by
  constructor
  · intro hkeeps hnone
    exact not_keepsActive_of_unpinned hnone hkeeps
  · intro hsome
    obtain ⟨v, hv⟩ := Option.ne_none_iff_exists'.mp hsome
    exact keepsActive_of_pinned hv

/-- The first rotation of a fresh installation. -/
theorem first_rotation_signs_early :
    ¬ KeepsActive digitScheme "accesscore-signing"
      ⟨"https://auth.accesscore.dev", "accesscore", 900⟩ ⟨1, 1, none, 0⟩ :=
  not_keepsActive_of_unpinned rfl

end Rotation

end AccessCore
