/-
  Sequential runs of the signing keys: rotation, promotion, drain and retirement against the
  tokens that are still out and the key sets that verifiers have cached.

  `KeyRun.Sound` relates an outstanding token to the drain list: until it expires, its version is
  the active one or is retiring with a deadline no earlier than the token's.  `Serves` relates a
  cached key set to the versions: it misses the active version only once it is too old to be used.
  Both hold along every run whose promotions leave the caches time to expire, and together they
  say that a token verifies until it expires (`issued_verifies`).
-/
import AccessCore.Authn.SigningKeys

namespace AccessCore

namespace KeyStore

/-- The retiring keys that have drained. -/
def drained (store : KeyStore) : List RetiringKey :=
  store.document.retiring.filter (·.drainUntilMs ≤ store.nowMs)

/-- The retiring keys that have not. -/
def draining (store : KeyStore) : List RetiringKey :=
  store.document.retiring.filter (·.drainUntilMs > store.nowMs)

end KeyStore

/-- A retiring key before a later one: it drains no later. -/
def RetiringKey.Before (a b : RetiringKey) : Prop :=
  a.version < b.version ∧ a.drainUntilMs ≤ b.drainUntilMs

/-- The settings of an installation. -/
structure KeySettings where
  scheme : SignatureScheme
  keyName : String
  issuer : String
  audience : String
  accessTokenTtlSeconds : Nat
  clockSkewSeconds : Nat
  jwksTtlSeconds : Nat

namespace KeySettings

variable (settings : KeySettings)

def exec : (op : KeyOp) → KeyStore → KeyStore × op.Answer :=
  KeyStore.exec settings.scheme settings.keyName

/-- The token issuer and the key service are given one lifetime. -/
def tokens : AccessTokenConfig :=
  ⟨settings.issuer, settings.audience, settings.accessTokenTtlSeconds⟩

def signingKeys : SigningKeysConfig := ⟨settings.accessTokenTtlSeconds⟩

def verifier : JwtVerifierConfig :=
  ⟨settings.issuer, settings.audience, settings.clockSkewSeconds⟩

def publicKeys (store : KeyStore) : List PublicKey :=
  store.publicKeys settings.scheme settings.keyName

/-- `JwtVerifier.verify` at a state of the stores, with a provider's cache. -/
def verify (store : KeyStore) (provider : JwksProvider) (token : Jwt) :
    Except VerifyError VerifiedClaims × JwksProvider :=
  JwtVerifier.verify settings.scheme settings.verifier settings.jwksTtlSeconds store.nowMs
    (settings.publicKeys store) provider token

/-- The token of a version, made at a time. -/
def tokenOf (version : Nat) (claims : AccessTokenClaims) (jti : String) (issuedMs : Int) : Jwt :=
  let header : JwtHeader := ⟨some "EdDSA", some "JWT", some (kidFor settings.keyName version)⟩
  let payload := payloadOf settings.tokens claims jti issuedMs
  ⟨header, payload, settings.scheme.sign version (header, payload)⟩

/-! ## What each operation does when it runs alone -/

variable {settings} {store : KeyStore}

theorem eval_pinnedOrLatest :
    (SigningKeyService.pinnedOrLatest store.document).eval settings.exec store =
      (store, .ok store.activeVersion) := by
  unfold SigningKeyService.pinnedOrLatest KeyStore.activeVersion
  cases store.document.pinnedVersion <;> rfl

theorem eval_resolveActive :
    (SigningKeyService.resolveActive settings.keyName).eval settings.exec store =
      (store, .ok ⟨store.activeVersion, kidFor settings.keyName store.activeVersion⟩) := by
  show (SigningKeyService.pinnedOrLatest store.document >>= _).eval settings.exec store = _
  rw [Proc.eval_bind, eval_pinnedOrLatest]
  rfl

theorem eval_rotate :
    (SigningKeyService.rotate settings.keyName).eval settings.exec store =
      ({ store with
          latest := store.latest + 1
          row := some { store.document with pinnedVersion := some store.activeVersion } },
        .ok ()) := by
  rw [SigningKeyService.rotate, Proc.eval_bind, eval_resolveActive]
  rfl

theorem eval_promote :
    (SigningKeyService.promote settings.signingKeys).eval settings.exec store =
      ({ store with
          row := some (if store.latest ≤ store.activeVersion then
              { store.document with pinnedVersion := none }
            else ⟨none, store.document.retiring.filter (·.version ≠ store.activeVersion) ++
              [⟨store.activeVersion, store.nowMs + settings.accessTokenTtlSeconds * 1000⟩]⟩) },
        .ok ()) := by
  show (SigningKeyService.pinnedOrLatest store.document >>= _).eval settings.exec store = _
  rw [Proc.eval_bind, eval_pinnedOrLatest]
  show Proc.eval settings.exec (if store.latest ≤ store.activeVersion then _ else _) store = _
  split_ifs <;> rfl

theorem eval_retire :
    (SigningKeyService.retire.eval settings.exec store).1 =
      if store.drained = [] then store
      else { store with
        minDecryption := SigningKeyService.retireTarget store.drained
        row := some { store.document with retiring := store.draining } } := by
  show (Proc.eval settings.exec (if store.drained = [] then _ else _) store).1 = _
  split_ifs <;> rfl

theorem eval_issue {claims : AccessTokenClaims} {jti : String}
    (hmin : store.minDecryption ≤ store.activeVersion) (hmax : store.activeVersion ≤ store.latest) :
    (JwtAccessTokenIssuer.issue settings.keyName settings.tokens claims jti).eval settings.exec
        store =
      (store, .ok ⟨settings.tokenOf store.activeVersion claims jti store.nowMs, jti,
        (seconds store.nowMs + settings.accessTokenTtlSeconds) * 1000,
        settings.accessTokenTtlSeconds⟩) := by
  show ((SigningKeyService.resolveActive settings.keyName >>= _).eval settings.exec store) = _
  rw [Proc.eval_bind, eval_resolveActive]
  have hsign : ∀ input, (Signer.sign input store.activeVersion).eval settings.exec store =
      (store, .ok (some ⟨kidFor settings.keyName store.activeVersion,
        settings.scheme.sign store.activeVersion input⟩)) := by
    intro input
    show (store, Except.ok (if _ then _ else none)) = _
    rw [if_pos ⟨hmin, hmax⟩]
  dsimp only
  rw [Proc.eval_bind, hsign]
  show Proc.eval settings.exec (if _ then _ else _) store = _
  rw [if_neg (fun h => h rfl)]
  rfl

end KeySettings

/-! ## Runs -/

/-- One step of an installation: a call, or the passing of time. -/
inductive KeyOperation where
  | rotate
  | promote
  | retire
  | issue (claims : AccessTokenClaims) (jti : String)
  | jwks
  | refresh
  | verify (token : Jwt)
  | wait (elapsedMs : Nat)

/-- The stores, the cached key set, the tokens issued so far and the time of the last rotation. -/
structure KeyRun where
  store : KeyStore
  provider : JwksProvider
  issued : List Jwt
  rotatedAtMs : Option Int

namespace KeyRun

def start (store : KeyStore) : KeyRun := ⟨store, ⟨none, 0⟩, [], none⟩

variable (settings : KeySettings)

def step (run : KeyRun) : KeyOperation → KeyRun
  | .rotate => { run with
      store := ((SigningKeyService.rotate settings.keyName).eval settings.exec run.store).1
      rotatedAtMs := some run.store.nowMs }
  | .promote => { run with
      store := ((SigningKeyService.promote settings.signingKeys).eval settings.exec run.store).1 }
  | .retire => { run with store := (SigningKeyService.retire.eval settings.exec run.store).1 }
  | .issue claims jti =>
    match (JwtAccessTokenIssuer.issue settings.keyName settings.tokens claims jti).eval
        settings.exec run.store with
    | (store, .ok token) => { run with store := store, issued := token.token :: run.issued }
    | (store, .error _) => { run with store := store }
  | .jwks => { run with
      provider := (run.provider.jwks settings.jwksTtlSeconds (settings.publicKeys run.store)
        run.store.nowMs).2 }
  | .refresh => { run with
      provider := (run.provider.refresh (settings.publicKeys run.store) run.store.nowMs).2 }
  | .verify token => { run with
      provider := (settings.verify run.store run.provider token).2 }
  | .wait elapsedMs => { run with
      store := { run.store with nowMs := run.store.nowMs + elapsedMs } }

def runAll (run : KeyRun) (operations : List KeyOperation) : KeyRun :=
  operations.foldl (step settings) run

/-- A promotion leaves the caches of before the last rotation time to expire. -/
def Timely (run : KeyRun) : KeyOperation → Prop
  | .promote => ∀ atMs ∈ run.rotatedAtMs, atMs + settings.jwksTtlSeconds * 1000 ≤ run.store.nowMs
  | _ => True

def AllTimely : KeyRun → List KeyOperation → Prop
  | _, [] => True
  | run, operation :: operations =>
    run.Timely settings operation ∧ AllTimely (run.step settings operation) operations

/-! ## The invariant -/

/-- A version is kept up to a deadline: it is active, or it drains no earlier. -/
def Kept (store : KeyStore) (version : Nat) (deadlineMs : Int) : Prop :=
  deadlineMs ≤ store.nowMs ∨ version = store.activeVersion ∨
    ∃ entry ∈ store.document.retiring, entry.version = version ∧ deadlineMs ≤ entry.drainUntilMs

/-- A token of the run: issued before, with a version no later than the active one that is kept
    until the token expires. -/
def Outstanding (run : KeyRun) (token : Jwt) : Prop :=
  ∃ version claims jti issuedMs, token = settings.tokenOf version claims jti issuedMs ∧
    issuedMs ≤ run.store.nowMs ∧ version ≤ run.store.activeVersion ∧
    Kept run.store version ((seconds issuedMs + settings.accessTokenTtlSeconds) * 1000)

/-- A cached key set is that of an earlier state of the signer.  If it misses the latest version it
    was loaded before the last rotation, and if it misses the active one it is too old to serve. -/
def Serves (run : KeyRun) (provider : JwksProvider) : Prop :=
  ∀ jwks ∈ provider.cache, ∃ old : KeyStore,
    jwks = (settings.publicKeys old).map JwksProvider.toJwk ∧
    provider.cachedAtMs ≤ run.store.nowMs ∧ old.minDecryption ≤ run.store.minDecryption ∧
    (old.latest < run.store.latest → ∃ atMs ∈ run.rotatedAtMs, provider.cachedAtMs ≤ atMs) ∧
    (old.latest < run.store.activeVersion →
      provider.cachedAtMs + settings.jwksTtlSeconds * 1000 ≤ run.store.nowMs)

/-- What every step keeps. -/
structure Sound (run : KeyRun) : Prop where
  active_le : run.store.activeVersion ≤ run.store.latest
  min_le : run.store.minDecryption ≤ run.store.activeVersion
  retiring : ∀ entry ∈ run.store.document.retiring, entry.version < run.store.activeVersion ∧
    run.store.minDecryption ≤ entry.version ∧
    entry.drainUntilMs ≤ run.store.nowMs + settings.accessTokenTtlSeconds * 1000
  ordered : run.store.document.retiring.Pairwise RetiringKey.Before
  rotated : ∀ atMs ∈ run.rotatedAtMs, atMs ≤ run.store.nowMs
  outstanding : ∀ token ∈ run.issued, run.Outstanding settings token
  serves : run.Serves settings run.provider

variable {settings} {run : KeyRun}

/-- Where a store may start: nothing is draining, and the active version is available. -/
structure Fresh (store : KeyStore) : Prop where
  retiring : store.document.retiring = []
  min_le : store.minDecryption ≤ store.activeVersion
  active_le : store.activeVersion ≤ store.latest

theorem sound_start {store : KeyStore} (h : Fresh store) : (start store).Sound settings where
  active_le := h.active_le
  min_le := h.min_le
  retiring := by simp [start, h.retiring]
  ordered := by simp [start, h.retiring]
  rotated := by simp [start]
  outstanding := by simp [start]
  serves := by simp [Serves, start]

theorem Outstanding.later {run' : KeyRun} {token : Jwt} (h : run.Outstanding settings token)
    (hnow : run.store.nowMs ≤ run'.store.nowMs)
    (hactive : run.store.activeVersion ≤ run'.store.activeVersion)
    (hkept : ∀ version deadlineMs,
      deadlineMs ≤ run.store.nowMs + settings.accessTokenTtlSeconds * 1000 →
      Kept run.store version deadlineMs → Kept run'.store version deadlineMs) :
    run'.Outstanding settings token := by
  obtain ⟨version, claims, jti, issuedMs, htoken, hissued, hversion, hkeep⟩ := h
  have hdeadline : (seconds issuedMs + settings.accessTokenTtlSeconds) * 1000 ≤
      run.store.nowMs + settings.accessTokenTtlSeconds * 1000 := by
    have hsec := seconds_mul_le issuedMs
    omega
  exact ⟨version, claims, jti, issuedMs, htoken, hissued.trans hnow, hversion.trans hactive,
    hkept version _ hdeadline hkeep⟩

/-- A key set loaded now serves. -/
theorem serves_load (h : run.store.activeVersion ≤ run.store.latest) :
    run.Serves settings
      (JwksProvider.load (settings.publicKeys run.store) run.store.nowMs).2 := by
  intro jwks hjwks
  obtain rfl := Option.some.inj hjwks
  exact ⟨run.store, rfl, le_rfl, le_rfl, fun hlt => absurd hlt (lt_irrefl _),
    fun hlt => absurd h (Nat.not_le.mpr hlt)⟩

/-- What a provider has cached after it was asked for keys. -/
theorem serves_cachedFor (h : run.store.activeVersion ≤ run.store.latest) {maxAgeMs : Int}
    {provider : JwksProvider} (hprovider : run.Serves settings provider) :
    run.Serves settings (provider.cachedFor maxAgeMs (settings.publicKeys run.store)
      run.store.nowMs).2 := by
  rcases JwksProvider.cachedFor_cases maxAgeMs provider (settings.publicKeys run.store)
    run.store.nowMs with ⟨jwks, _, _, heq⟩ | heq
  · rw [heq]
    exact hprovider
  · rw [heq]
    exact serves_load h

theorem serves_verify (h : run.store.activeVersion ≤ run.store.latest) {provider : JwksProvider}
    (hprovider : run.Serves settings provider) (token : Jwt) :
    run.Serves settings (settings.verify run.store provider token).2 := by
  have hjwks : run.Serves settings (provider.jwks settings.jwksTtlSeconds
      (settings.publicKeys run.store) run.store.nowMs).2 := serves_cachedFor h hprovider
  unfold KeySettings.verify JwtVerifier.verify
  split
  · next kid _ _ =>
    simp only
    split
    · exact hjwks
    · split
      · exact serves_cachedFor h hjwks
      · exact serves_cachedFor h hjwks
  · exact hprovider

/-! ### Rotation -/

theorem active_rotate :
    (run.step settings .rotate).store.activeVersion = run.store.activeVersion := by
  simp only [step, KeySettings.eval_rotate]
  rfl

theorem retiring_rotate :
    (run.step settings .rotate).store.document.retiring = run.store.document.retiring := by
  simp only [step, KeySettings.eval_rotate]
  rfl

variable (settings run) in
theorem store_rotate :
    (run.step settings .rotate).store.latest = run.store.latest + 1 ∧
      (run.step settings .rotate).store.minDecryption = run.store.minDecryption ∧
      (run.step settings .rotate).store.nowMs = run.store.nowMs := by
  refine ⟨?_, ?_, ?_⟩ <;> simp only [step, KeySettings.eval_rotate]

theorem serves_rotate {provider : JwksProvider} (h : run.Serves settings provider) :
    (run.step settings .rotate).Serves settings provider := by
  intro jwks hjwks
  obtain ⟨hlatest, hmin, hnow⟩ := store_rotate settings run
  obtain ⟨old, hkeys, hcached, hold, _, hactive⟩ := h jwks hjwks
  refine ⟨old, hkeys, hnow ▸ hcached, hmin ▸ hold, fun _ => ⟨_, rfl, hcached⟩, ?_⟩
  rw [active_rotate, hnow]
  exact hactive

theorem sound_rotate (h : run.Sound settings) : (run.step settings .rotate).Sound settings := by
  obtain ⟨hlatest, hmin, hnow⟩ := store_rotate settings run
  constructor
  case active_le =>
    rw [active_rotate, hlatest]
    exact h.active_le.trans (Nat.le_succ _)
  case min_le =>
    rw [active_rotate, hmin]
    exact h.min_le
  case retiring =>
    rw [active_rotate, retiring_rotate, hmin, hnow]
    exact h.retiring
  case ordered =>
    rw [retiring_rotate]
    exact h.ordered
  case rotated =>
    intro atMs hat
    obtain rfl := Option.some.inj hat
    rw [hnow]
  case outstanding =>
    intro token htoken
    refine (h.outstanding token htoken).later hnow.ge active_rotate.ge fun version deadline _ => ?_
    rw [Kept, Kept, active_rotate, retiring_rotate, hnow]
    exact id
  case serves => exact serves_rotate h.serves

/-! ### Promotion -/

/-- The document is unpinned, and the version that was active drains from now on if there is a
    later one. -/
theorem retiring_promote (h : run.Sound settings) :
    (run.step settings .promote).store.document.retiring =
      if run.store.latest ≤ run.store.activeVersion then run.store.document.retiring
      else run.store.document.retiring ++ [⟨run.store.activeVersion,
        run.store.nowMs + settings.accessTokenTtlSeconds * 1000⟩] := by
  have hothers : run.store.document.retiring.filter (·.version ≠ run.store.activeVersion) =
      run.store.document.retiring := by
    rw [List.filter_eq_self]
    intro entry hentry
    have hlt := (h.retiring entry hentry).1
    simp only [ne_eq, decide_not, Bool.not_eq_eq_eq_not, Bool.not_true, decide_eq_false_iff_not]
    omega
  simp only [step, KeySettings.eval_promote]
  by_cases hlatest : run.store.latest ≤ run.store.activeVersion
  · simp only [if_pos hlatest]
    rfl
  · simp only [if_neg hlatest, hothers]
    rfl

variable (settings run) in
theorem store_promote :
    (run.step settings .promote).store.activeVersion = run.store.latest ∧
      (run.step settings .promote).store.latest = run.store.latest ∧
      (run.step settings .promote).store.minDecryption = run.store.minDecryption ∧
      (run.step settings .promote).store.nowMs = run.store.nowMs := by
  refine ⟨?_, ?_, ?_, ?_⟩ <;> simp only [step, KeySettings.eval_promote]
  split_ifs <;> rfl

theorem serves_promote {provider : JwksProvider} (htimely : run.Timely settings .promote)
    (h : run.Serves settings provider) : (run.step settings .promote).Serves settings provider := by
  intro jwks hjwks
  obtain ⟨hactive, hlatest, hmin, hnow⟩ := store_promote settings run
  obtain ⟨old, hkeys, hcached, hold, hmissing, _⟩ := h jwks hjwks
  refine ⟨old, hkeys, hnow ▸ hcached, hmin ▸ hold, hlatest ▸ hmissing, ?_⟩
  rw [hactive, hnow]
  intro hlt
  -- the set was loaded before the last rotation, and that is long enough ago
  obtain ⟨atMs, hat, hbefore⟩ := hmissing hlt
  have hage := htimely atMs hat
  omega

theorem sound_promote (h : run.Sound settings) (htimely : run.Timely settings .promote) :
    (run.step settings .promote).Sound settings := by
  obtain ⟨hactive, hlatest, hmin, hnow⟩ := store_promote settings run
  have hretiring := retiring_promote h
  have hactive_le := h.active_le
  have hmin_le := h.min_le
  constructor
  case active_le => rw [hactive, hlatest]
  case min_le =>
    rw [hactive, hmin]
    exact hmin_le.trans hactive_le
  case retiring =>
    rw [hactive, hretiring, hmin, hnow]
    intro entry hentry
    split_ifs at hentry with hle
    · obtain ⟨hlt, hmin', hdrain⟩ := h.retiring entry hentry
      exact ⟨hlt.trans_le hactive_le, hmin', hdrain⟩
    · rcases List.mem_append.mp hentry with hentry | hentry
      · obtain ⟨hlt, hmin', hdrain⟩ := h.retiring entry hentry
        exact ⟨hlt.trans_le hactive_le, hmin', hdrain⟩
      · obtain rfl := List.mem_singleton.mp hentry
        exact ⟨Nat.not_le.mp hle, hmin_le, le_rfl⟩
  case ordered =>
    rw [hretiring]
    split_ifs with hle
    · exact h.ordered
    · refine List.pairwise_append.mpr ⟨h.ordered, List.pairwise_singleton _ _, ?_⟩
      intro entry hentry last hlast
      obtain rfl := List.mem_singleton.mp hlast
      obtain ⟨hlt, _, hdrain⟩ := h.retiring entry hentry
      exact ⟨hlt, hdrain⟩
  case rotated =>
    rw [hnow]
    exact h.rotated
  case outstanding =>
    intro token htoken
    have hgrows : run.store.activeVersion ≤ (run.step settings .promote).store.activeVersion := by
      rw [hactive]
      exact hactive_le
    refine (h.outstanding token htoken).later hnow.ge hgrows fun version deadline hbound hkept => ?_
    rw [Kept, hactive, hretiring, hnow]
    rcases hkept with hpast | rfl | ⟨entry, hentry, hversion, hdeadline⟩
    · exact Or.inl hpast
    · split_ifs with hle
      · exact Or.inr (Or.inl (le_antisymm hactive_le hle))
      · exact Or.inr (Or.inr ⟨_, List.mem_append_right _ (List.mem_singleton_self _), rfl, hbound⟩)
    · refine Or.inr (Or.inr ⟨entry, ?_, hversion, hdeadline⟩)
      split_ifs with hle
      · exact hentry
      · exact List.mem_append_left _ hentry
  case serves => exact serves_promote htimely h.serves

/-! ### Retirement -/

/-- Every drained version is below the target, and the target is one above one of them. -/
theorem retireTarget_spec {drained : List RetiringKey} (hne : drained ≠ []) :
    (∀ entry ∈ drained, entry.version < SigningKeyService.retireTarget drained) ∧
      ∃ entry ∈ drained, SigningKeyService.retireTarget drained = entry.version + 1 := by
  unfold SigningKeyService.retireTarget
  induction drained with
  | nil => exact absurd rfl hne
  | cons first rest ih =>
    simp only [List.map_cons, List.foldr_cons, List.mem_cons, forall_eq_or_imp, exists_eq_or_imp]
    rcases rest with _ | ⟨second, rest⟩
    · simp
    · obtain ⟨hbelow, entry, hentry, htarget⟩ := ih (List.cons_ne_nil _ _)
      refine ⟨⟨by omega, fun entry hentry => ?_⟩, ?_⟩
      · have hlt := hbelow entry hentry
        omega
      · rcases Nat.le_total first.version
          ((List.map (·.version) (second :: rest)).foldr max 0) with hle | hle
        · exact Or.inr ⟨entry, hentry, by omega⟩
        · exact Or.inl (by omega)

theorem step_retire (h : run.store.drained = []) : run.step settings .retire = run := by
  show { run with store := _ } = run
  rw [KeySettings.eval_retire, if_pos h]

theorem store_retire (h : run.store.drained ≠ []) :
    (run.step settings .retire).store = { run.store with
      minDecryption := SigningKeyService.retireTarget run.store.drained
      row := some { run.store.document with retiring := run.store.draining } } := by
  show (SigningKeyService.retire.eval settings.exec run.store).1 = _
  rw [KeySettings.eval_retire, if_neg h]

/-- What is still draining is above what has drained. -/
theorem drained_lt_draining (h : run.Sound settings) {past next : RetiringKey}
    (hpast : past ∈ run.store.drained) (hnext : next ∈ run.store.draining) :
    past.version < next.version := by
  simp only [KeyStore.drained, KeyStore.draining, List.mem_filter, decide_eq_true_eq] at hpast hnext
  have hne : past ≠ next := fun heq => by
    have hdrained := hpast.2
    rw [heq] at hdrained
    omega
  have hsymm : run.store.document.retiring.Pairwise fun a b => a.Before b ∨ b.Before a :=
    h.ordered.imp Or.inl
  have : Std.Symm fun a b : RetiringKey => a.Before b ∨ b.Before a := ⟨fun _ _ => Or.symm⟩
  rcases hsymm.forall hpast.1 hnext.1 hne with hlt | hlt
  · exact hlt.1
  · have hdrain := hlt.2
    omega

theorem min_le_retire (h : run.Sound settings) (hne : run.store.drained ≠ []) :
    run.store.minDecryption ≤ SigningKeyService.retireTarget run.store.drained := by
  obtain ⟨-, entry, hentry, htarget⟩ := retireTarget_spec hne
  have hmin := (h.retiring entry (List.mem_of_mem_filter hentry)).2.1
  omega

theorem serves_retire (h : run.Sound settings) {provider : JwksProvider}
    (hprovider : run.Serves settings provider) :
    (run.step settings .retire).Serves settings provider := by
  by_cases hne : run.store.drained = []
  · rw [step_retire hne]
    exact hprovider
  · intro jwks hjwks
    obtain ⟨old, hkeys, hcached, hold, hrest⟩ := hprovider jwks hjwks
    rw [store_retire hne]
    exact ⟨old, hkeys, hcached, hold.trans (min_le_retire h hne), hrest⟩

theorem sound_retire (h : run.Sound settings) : (run.step settings .retire).Sound settings := by
  by_cases hne : run.store.drained = []
  · rw [step_retire hne]
    exact h
  obtain ⟨hbelow, last, hlast, htarget⟩ := retireTarget_spec hne
  have hactive : (run.step settings .retire).store.activeVersion = run.store.activeVersion := by
    rw [store_retire hne]
    rfl
  have hretiring : (run.step settings .retire).store.document.retiring = run.store.draining := by
    rw [store_retire hne]
    rfl
  constructor
  case active_le =>
    rw [hactive, store_retire hne]
    exact h.active_le
  case min_le =>
    rw [hactive, store_retire hne]
    have hlt := (h.retiring last (List.mem_of_mem_filter hlast)).1
    show SigningKeyService.retireTarget run.store.drained ≤ run.store.activeVersion
    omega
  case retiring =>
    rw [hactive, hretiring, store_retire hne]
    intro entry hentry
    obtain ⟨hlt, _, hdrain⟩ := h.retiring entry (List.mem_of_mem_filter hentry)
    have habove := drained_lt_draining h hlast hentry
    refine ⟨hlt, ?_, hdrain⟩
    show SigningKeyService.retireTarget run.store.drained ≤ entry.version
    omega
  case ordered =>
    rw [hretiring]
    exact h.ordered.filter _
  case rotated =>
    rw [store_retire hne]
    exact h.rotated
  case outstanding =>
    intro token htoken
    have hnow : (run.step settings .retire).store.nowMs = run.store.nowMs := by
      rw [store_retire hne]
    refine (h.outstanding token htoken).later hnow.ge hactive.ge fun version deadline _ hkept => ?_
    rw [Kept, hactive, hretiring, hnow]
    rcases hkept with hpast | rfl | ⟨entry, hentry, hversion, hdeadline⟩
    · exact Or.inl hpast
    · exact Or.inr (Or.inl rfl)
    · by_cases hdrained : entry.drainUntilMs ≤ run.store.nowMs
      · exact Or.inl (hdeadline.trans hdrained)
      · have hmem : entry ∈ run.store.draining := by
          simpa [KeyStore.draining, hentry] using Int.not_le.mp hdrained
        exact Or.inr (Or.inr ⟨entry, hmem, hversion, hdeadline⟩)
  case serves => exact serves_retire h h.serves

/-! ### Issue, and the rest -/

theorem step_issue (h : run.Sound settings) (claims : AccessTokenClaims) (jti : String) :
    run.step settings (.issue claims jti) =
      { run with issued :=
          settings.tokenOf run.store.activeVersion claims jti run.store.nowMs :: run.issued } := by
  simp only [step, KeySettings.eval_issue h.min_le h.active_le]

theorem sound_issue (h : run.Sound settings) (claims : AccessTokenClaims) (jti : String) :
    (run.step settings (.issue claims jti)).Sound settings := by
  rw [step_issue h]
  refine ⟨h.active_le, h.min_le, h.retiring, h.ordered, h.rotated, ?_, h.serves⟩
  intro token htoken
  rcases List.mem_cons.mp htoken with rfl | htoken
  · exact ⟨_, claims, jti, _, rfl, le_rfl, le_rfl, Or.inr (Or.inl rfl)⟩
  · exact h.outstanding token htoken

theorem serves_wait {elapsedMs : Nat} {provider : JwksProvider}
    (h : run.Serves settings provider) :
    (run.step settings (.wait elapsedMs)).Serves settings provider := by
  intro jwks hjwks
  obtain ⟨old, hkeys, hcached, hold, hlatest, hactive⟩ := h jwks hjwks
  have hnow : run.store.nowMs ≤ run.store.nowMs + elapsedMs := by omega
  exact ⟨old, hkeys, hcached.trans hnow, hold, hlatest, fun hlt => (hactive hlt).trans hnow⟩

theorem sound_wait (h : run.Sound settings) (elapsedMs : Nat) :
    (run.step settings (.wait elapsedMs)).Sound settings := by
  have hnow : run.store.nowMs ≤ run.store.nowMs + elapsedMs := by omega
  constructor
  case active_le => exact h.active_le
  case min_le => exact h.min_le
  case retiring =>
    intro entry hentry
    obtain ⟨hlt, hmin, hdrain⟩ := h.retiring entry hentry
    refine ⟨hlt, hmin, hdrain.trans ?_⟩
    show _ ≤ run.store.nowMs + elapsedMs + settings.accessTokenTtlSeconds * 1000
    omega
  case ordered => exact h.ordered
  case rotated => exact fun atMs hat => (h.rotated atMs hat).trans hnow
  case outstanding =>
    intro token htoken
    refine (h.outstanding token htoken).later hnow le_rfl fun version deadline _ hkept => ?_
    rcases hkept with hpast | hkept
    · exact Or.inl (hpast.trans hnow)
    · exact Or.inr hkept
  case serves => exact serves_wait h.serves

/-- The step lemma. -/
theorem sound_step (h : run.Sound settings) {operation : KeyOperation}
    (htimely : run.Timely settings operation) : (run.step settings operation).Sound settings := by
  cases operation with
  | rotate => exact sound_rotate h
  | promote => exact sound_promote h htimely
  | retire => exact sound_retire h
  | issue claims jti => exact sound_issue h claims jti
  | jwks => exact { h with serves := serves_cachedFor h.active_le h.serves }
  | refresh => exact { h with serves := serves_cachedFor h.active_le h.serves }
  | verify token => exact { h with serves := serves_verify h.active_le h.serves token }
  | wait elapsedMs => exact sound_wait h elapsedMs

/-- A cache of an earlier moment still serves after a step. -/
theorem serves_step (h : run.Sound settings) {operation : KeyOperation}
    (htimely : run.Timely settings operation) {provider : JwksProvider}
    (hprovider : run.Serves settings provider) :
    (run.step settings operation).Serves settings provider := by
  cases operation with
  | rotate => exact serves_rotate hprovider
  | promote => exact serves_promote htimely hprovider
  | retire => exact serves_retire h hprovider
  | issue claims jti =>
    rw [step_issue h]
    exact hprovider
  | jwks => exact hprovider
  | refresh => exact hprovider
  | verify token => exact hprovider
  | wait elapsedMs => exact serves_wait hprovider

/-- The run lemma, for the state and for the caches of before. -/
theorem sound_runAll {operations : List KeyOperation} (h : run.Sound settings)
    (htimely : run.AllTimely settings operations) :
    (run.runAll settings operations).Sound settings ∧
      ∀ provider, run.Serves settings provider →
        (run.runAll settings operations).Serves settings provider := by
  induction operations generalizing run with
  | nil => exact ⟨h, fun _ hprovider => hprovider⟩
  | cons operation operations ih =>
    obtain ⟨hfirst, hrest⟩ := htimely
    obtain ⟨hsound, hserves⟩ := ih (sound_step h hfirst) hrest
    exact ⟨hsound, fun provider hprovider => hserves provider (serves_step h hfirst hprovider)⟩

theorem allTimely_append {earlier later : List KeyOperation} :
    run.AllTimely settings (earlier ++ later) ↔ run.AllTimely settings earlier ∧
      (run.runAll settings earlier).AllTimely settings later := by
  induction earlier generalizing run with
  | nil => simp [AllTimely, runAll]
  | cons operation earlier ih =>
    simp only [List.cons_append, AllTimely, ih, and_assoc]
    rfl

/-! ## Verification -/

/-- The key of a published version is found. -/
theorem find_jwk {store : KeyStore} {version : Nat} (hmin : store.minDecryption ≤ version)
    (hmax : version ≤ store.latest) :
    ((settings.publicKeys store).map JwksProvider.toJwk).find?
        (·.kid = kidFor settings.keyName version) =
      some ⟨settings.scheme.key version, kidFor settings.keyName version, "EdDSA"⟩ := by
  have hmem : ∀ jwk, jwk ∈ (settings.publicKeys store).map JwksProvider.toJwk ↔
      ∃ v, (v < store.latest + 1 ∧ store.minDecryption ≤ v) ∧
        jwk = ⟨settings.scheme.key v, kidFor settings.keyName v, "EdDSA"⟩ := by
    intro jwk
    simp [KeySettings.publicKeys, KeyStore.publicKeys, JwksProvider.toJwk, eq_comm]
  cases hfind : ((settings.publicKeys store).map JwksProvider.toJwk).find?
      (·.kid = kidFor settings.keyName version) with
  | none =>
    have hnone := List.find?_eq_none.mp hfind _
      ((hmem _).mpr ⟨version, ⟨Nat.lt_succ_of_le hmax, hmin⟩, rfl⟩)
    simp at hnone
  | some jwk =>
    obtain ⟨v, _, rfl⟩ := (hmem jwk).mp (List.mem_of_find?_eq_some hfind)
    have hkid : kidFor settings.keyName v = kidFor settings.keyName version := by
      simpa using List.find?_some hfind
    rw [kidFor_inj hkid]

/-- A token that has not expired verifies, with the cache of any moment so far. -/
theorem verify_outstanding (h : run.Sound settings) {provider : JwksProvider}
    (hprovider : run.Serves settings provider) {token : Jwt}
    (htoken : run.Outstanding settings token)
    (hunexpired : ∀ exp ∈ token.payload.exp, run.store.nowMs < exp * 1000) :
    (settings.verify run.store provider token).1 = .ok token.payload := by
  obtain ⟨version, claims, jti, issuedMs, rfl, hissued, hversion, hkept⟩ := htoken
  have hexp : run.store.nowMs < (seconds issuedMs + settings.accessTokenTtlSeconds) * 1000 :=
    hunexpired _ rfl
  -- its key is still there
  have hmin : run.store.minDecryption ≤ version := by
    rcases hkept with hpast | rfl | ⟨entry, hentry, rfl, _⟩
    · omega
    · exact h.min_le
    · exact (h.retiring entry hentry).2.1
  have hmax : version ≤ run.store.latest := hversion.trans h.active_le
  -- and every key set that is served has it
  have hfound : (provider.jwks settings.jwksTtlSeconds (settings.publicKeys run.store)
      run.store.nowMs).1.find? (·.kid = kidFor settings.keyName version) =
        some ⟨settings.scheme.key version, kidFor settings.keyName version, "EdDSA"⟩ := by
    rcases JwksProvider.cachedFor_cases (settings.jwksTtlSeconds * 1000) provider
      (settings.publicKeys run.store) run.store.nowMs with ⟨jwks, hcache, hage, heq⟩ | heq
    · rw [JwksProvider.jwks, heq]
      obtain ⟨old, rfl, _, hold, _, hactive⟩ := hprovider jwks hcache
      have hcovers : run.store.activeVersion ≤ old.latest := by
        by_contra hlt
        have hstale := hactive (Nat.not_le.mp hlt)
        omega
      exact find_jwk (hold.trans hmin) (hversion.trans hcovers)
    · rw [JwksProvider.jwks, heq]
      exact find_jwk hmin hmax
  have hclaims : JwtVerifier.checkClaims settings.verifier run.store.nowMs
      (payloadOf settings.tokens claims jti issuedMs) =
        .ok (payloadOf settings.tokens claims jti issuedMs) := by
    have hnow := seconds_mono hissued
    have hsec := seconds_mul_le run.store.nowMs
    rw [JwtVerifier.checkClaims_payloadOf rfl rfl, if_neg, if_neg]
    · show ¬ seconds issuedMs - (settings.clockSkewSeconds : Int) > seconds run.store.nowMs
      omega
    · show ¬ seconds issuedMs + (settings.accessTokenTtlSeconds : Int) +
        settings.clockSkewSeconds ≤ seconds run.store.nowMs
      omega
  have hsignature := settings.scheme.verify_sign version
    (⟨some "EdDSA", some "JWT", some (kidFor settings.keyName version)⟩,
      payloadOf settings.tokens claims jti issuedMs)
  simp only [KeySettings.verify, JwtVerifier.verify, KeySettings.tokenOf, hfound,
    JwtVerifier.checkToken, hsignature]
  simpa using hclaims

/-- Every token that a run issued verifies until it expires, whatever moment of the run the
    verifier's key set is from; the active version is never below the minimum, and a retiring
    version is below the active one. -/
theorem issued_verifies (settings : KeySettings) (store : KeyStore) (hstore : Fresh store)
    (earlier later : List KeyOperation)
    (htimely : (start store).AllTimely settings (earlier ++ later)) :
    let past := (start store).runAll settings earlier
    let run := (start store).runAll settings (earlier ++ later)
    run.store.minDecryption ≤ run.store.activeVersion ∧
      (∀ entry ∈ run.store.document.retiring, entry.version < run.store.activeVersion) ∧
      ∀ token ∈ run.issued, (∀ exp ∈ token.payload.exp, run.store.nowMs < exp * 1000) →
        (settings.verify run.store past.provider token).1 = .ok token.payload := by
  obtain ⟨hearlier, hlater⟩ := allTimely_append.mp htimely
  have hpast := (sound_runAll (sound_start hstore) hearlier).1
  obtain ⟨hsound, hserves⟩ := sound_runAll hpast hlater
  have happend : (start store).runAll settings (earlier ++ later) =
      ((start store).runAll settings earlier).runAll settings later := List.foldl_append
  simp only [happend]
  refine ⟨hsound.min_le, fun entry hentry => (hsound.retiring entry hentry).1, ?_⟩
  intro token htoken hunexpired
  exact verify_outstanding hsound (hserves _ hpast.serves) (hsound.outstanding token htoken)
    hunexpired

/-- An installation with the default lifetimes. -/
def defaults : KeySettings :=
  ⟨digitScheme, "accesscore-signing", "https://auth.accesscore.dev", "accesscore", 900, 30, 300⟩

/-- The first rotation, promoted after five minutes, with a token from each key. -/
def firstRotation : List KeyOperation :=
  [.issue ⟨"ann", "session-1", none, 1, 0⟩ "jti-1", .rotate, .wait 300000, .promote,
    .issue ⟨"ann", "session-2", none, 1, 0⟩ "jti-2", .wait 599000, .retire]

theorem firstRotation_timely :
    (start ⟨1, 1, none, 0⟩).AllTimely defaults ([.jwks] ++ firstRotation) := by
  refine ⟨trivial, trivial, trivial, trivial, ?_, trivial, trivial, trivial, trivial⟩
  intro atMs hat
  obtain rfl := Option.some.inj hat
  decide

theorem issued_verifies_firstRotation :
    let past := (start ⟨1, 1, none, 0⟩).runAll defaults [.jwks]
    let run := (start ⟨1, 1, none, 0⟩).runAll defaults ([.jwks] ++ firstRotation)
    run.issued.length = 2 ∧ (defaults.verify run.store past.provider
      (defaults.tokenOf 1 ⟨"ann", "session-1", none, 1, 0⟩ "jti-1" 0)).1 =
        .ok (payloadOf defaults.tokens ⟨"ann", "session-1", none, 1, 0⟩ "jti-1" 0) := by
  refine ⟨rfl, ?_⟩
  have hstore : Fresh ⟨1, 1, none, 0⟩ := ⟨rfl, le_rfl, le_rfl⟩
  refine (issued_verifies defaults ⟨1, 1, none, 0⟩ hstore [.jwks] firstRotation
    firstRotation_timely).2.2 _ ?_ ?_
  · exact List.mem_cons_of_mem _ (List.mem_singleton_self _)
  · intro exp hexp
    obtain rfl := Option.some.inj hexp
    decide

end KeyRun

end AccessCore
