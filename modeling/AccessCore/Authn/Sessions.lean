/-
  The stores of the authn handlers: sessions, token families and refresh tokens in the database
  (`authn/domain/session.ts`, `token-family.ts`, `refresh-token.ts`,
  `authn/infrastructure/persistence/drizzle-*.repository.ts`), and the grace cache, the blocklist
  and the lockout counters in Redis (`redis-refresh-grace-cache.ts`, `redis-revocation-store.ts`,
  `redis-lockout-store.ts`).

  A single statement is one operation.  A transaction of several statements is its reads, one
  operation each, and then one operation that makes all its changes visible: what an `UPDATE …
  WHERE` changes is what its statement found, as far as it still matches.

  Redis drops an entry when its time is over.  While Redis is down a write is lost, the grace cache
  and the lockout read as empty, and every subject reads as revoked.
-/
import AccessCore.Lib.Interleave
import AccessCore.Lib.Table
import AccessCore.Authz.Refs
import AccessCore.Authn.KeyLifecycle
import AccessCore.Identity.MfaHandlers

namespace AccessCore

/-! ## Rows -/

structure SessionId where
  value : String
deriving DecidableEq, Repr

structure TokenFamilyId where
  value : String
deriving DecidableEq, Repr

inductive SessionStatus where
  | active
  | revoked
deriving DecidableEq, Repr

structure Session where
  id : SessionId
  userId : UserId
  orgId : Option OrgId
  aal : Nat
  authTime : Int
  status : SessionStatus
  deviceLabel : Option String
  userAgent : Option String
  ip : Option String
  createdAt : Int
  lastSeenAt : Int
  expiresAt : Int
  revokedAt : Option Int
deriving DecidableEq

inductive TokenFamilyStatus where
  | active
  | revoked
deriving DecidableEq, Repr

structure TokenFamily where
  id : TokenFamilyId
  userId : UserId
  sessionId : SessionId
  status : TokenFamilyStatus
  createdAt : Int
  revokedAt : Option Int
  revokedReason : Option String
deriving DecidableEq, Repr

inductive RefreshTokenStatus where
  | active
  | rotated
  | revoked
deriving DecidableEq, Repr

structure RefreshToken where
  id : String
  familyId : TokenFamilyId
  tokenHash : String
  generation : Nat
  status : RefreshTokenStatus
  createdAt : Int
  expiresAt : Int
  consumedAt : Option Int
deriving DecidableEq, Repr

/-- `ReuseEvent`. -/
structure ReuseEvent where
  userId : String
  sessionId : String
  generation : Nat
deriving DecidableEq, Repr

/-- A row of the outbox. -/
structure OutboxRow where
  aggregateId : String
  type : String
  payload : ReuseEvent
  occurredAt : Int
deriving DecidableEq, Repr

inductive MembershipStatus where
  | active
  | suspended
deriving DecidableEq, Repr

inductive MembershipRole where
  | owner
  | member
deriving DecidableEq, Repr

structure Membership where
  id : String
  userId : UserId
  orgId : OrgId
  status : MembershipStatus
  role : MembershipRole
  joinedAt : Int
deriving DecidableEq

structure GracePair where
  accessToken : Jwt
  refreshToken : String
  expiresIn : Nat
  successorGeneration : Nat
deriving DecidableEq, Repr

/-- An entry of the grace cache, under the hash of the presented token. -/
structure GraceEntry where
  hash : String
  pair : GracePair
  expiresMs : Int
deriving DecidableEq, Repr

/-- An entry of the blocklist. -/
structure RevokedSubject where
  subject : String
  expiresMs : Int
deriving DecidableEq, Repr

structure LockoutPolicy where
  threshold : Nat
  windowSeconds : Nat
deriving DecidableEq, Repr

structure LockoutCount where
  key : String
  count : Nat
  expiresMs : Int
deriving DecidableEq, Repr

structure AuthnStore where
  sessions : Table Session SessionId (·.id)
  tokenFamilies : Table TokenFamily TokenFamilyId (·.id)
  refreshTokens : Table RefreshToken String (·.id)
  outbox : List OutboxRow
  memberships : List Membership
  identity : IdentityStore
  keys : KeyStore
  jwks : JwksProvider
  graceCache : Table GraceEntry String (·.hash)
  revoked : Table RevokedSubject String (·.subject)
  lockouts : Table LockoutCount String (·.key)
  redisUp : Bool
  nowMs : Int

/-! ## Changes of a row -/

def Session.touch (at_ : Int) (session : Session) : Session := { session with lastSeenAt := at_ }

def Session.elevate (aal : Nat) (authTime : Int) (session : Session) : Session :=
  { session with aal := aal, authTime := authTime }

def Session.revoke (at_ : Int) (session : Session) : Session :=
  { session with status := .revoked, revokedAt := some at_ }

def TokenFamily.revoke (reason : String) (at_ : Int) (family : TokenFamily) : TokenFamily :=
  { family with status := .revoked, revokedAt := some at_, revokedReason := some reason }

def RefreshToken.consume (at_ : Int) (token : RefreshToken) : RefreshToken :=
  { token with status := .rotated, consumedAt := some at_ }

def RefreshToken.revoke (token : RefreshToken) : RefreshToken := { token with status := .revoked }

@[simp] theorem Session.touch_id (at_ : Int) (session : Session) :
    (session.touch at_).id = session.id := rfl
@[simp] theorem Session.elevate_id (aal : Nat) (authTime : Int) (session : Session) :
    (session.elevate aal authTime).id = session.id := rfl
@[simp] theorem Session.revoke_id (at_ : Int) (session : Session) :
    (session.revoke at_).id = session.id := rfl
@[simp] theorem TokenFamily.revoke_id (reason : String) (at_ : Int) (family : TokenFamily) :
    (family.revoke reason at_).id = family.id := rfl
@[simp] theorem RefreshToken.consume_id (at_ : Int) (token : RefreshToken) :
    (token.consume at_).id = token.id := rfl
@[simp] theorem RefreshToken.revoke_id (token : RefreshToken) : token.revoke.id = token.id := rfl

namespace AuthnStore

variable (store : AuthnStore)

/-! ## The database -/

/-- `INSERT`, where the key is known to be free. -/
def insertRow {ρ κ : Type} [DecidableEq κ] {key : ρ → κ} (table : Table ρ κ key) (row : ρ) :
    Table ρ κ key :=
  table.upsert (fun old _ => old) (fun _ _ h => h) row

/-- Whether the unique columns of a new refresh token are free. -/
def admitsToken (token : RefreshToken) : Bool :=
  store.refreshTokens.rows.all fun row => row.id ≠ token.id && row.tokenHash ≠ token.tokenHash

/-- The three inserts of a login; `false` when an id or the hash is taken. -/
def createLogin (session : Session) (family : TokenFamily) (token : RefreshToken) :
    AuthnStore × Bool :=
  if store.sessions.get session.id = none ∧ store.tokenFamilies.get family.id = none ∧
      store.admitsToken token then
    ({ store with
      sessions := insertRow store.sessions session
      tokenFamilies := insertRow store.tokenFamilies family
      refreshTokens := insertRow store.refreshTokens token }, true)
  else (store, false)

/-- `DrizzleSessionsRepository.touch`. -/
def touch (id : SessionId) (at_ : Int) : AuthnStore :=
  { store with
    sessions := store.sessions.update (fun row => row.id = id) (Session.touch at_)
      (Session.touch_id at_) }

/-- `DrizzleSessionsRepository.elevate`: whether an active row was there. -/
def elevate (id : SessionId) (aal : Nat) (authTime : Int) : AuthnStore × Bool :=
  ({ store with
    sessions := store.sessions.update (fun row => row.id = id && row.status = .active)
      (Session.elevate aal authTime) (Session.elevate_id aal authTime) },
    store.sessions.rows.any fun row => row.id = id && row.status = .active)

/-- `DrizzleSessionsRepository.revoke`. -/
def revokeSession (id : SessionId) (at_ : Int) : AuthnStore :=
  { store with
    sessions := store.sessions.update (fun row => row.id = id) (Session.revoke at_)
      (Session.revoke_id at_) }

/-- What the `UPDATE` of `revokeBySession` finds. -/
def activeFamiliesOfSession (sessionId : SessionId) : List TokenFamilyId :=
  (store.tokenFamilies.select fun row => row.sessionId = sessionId && row.status = .active).map
    (·.id)

/-- What the `UPDATE` of `revokeAllForUser` of the families finds. -/
def activeFamiliesOfUser (userId : UserId) : List TokenFamilyId :=
  (store.tokenFamilies.select fun row => row.userId = userId && row.status = .active).map (·.id)

/-- What the `UPDATE` of `revokeAllForUser` of the sessions finds. -/
def activeSessionsOfUser (userId : UserId) : List SessionId :=
  (store.sessions.select fun row => row.userId = userId && row.status = .active).map (·.id)

/-- The active families among those found, revoked. -/
def revokeFamilies (found : List TokenFamilyId) (reason : String) (at_ : Int) :
    Table TokenFamily TokenFamilyId (·.id) :=
  store.tokenFamilies.update (fun row => found.contains row.id && row.status = .active)
    (TokenFamily.revoke reason at_) (TokenFamily.revoke_id reason at_)

/-- The transaction of `terminateSession`, from the families it found. -/
def terminateSession (sessionId : SessionId) (reason : String) (at_ : Int)
    (found : List TokenFamilyId) : AuthnStore :=
  { store with
    tokenFamilies := store.revokeFamilies found reason at_
    sessions := store.sessions.update (fun row => row.id = sessionId) (Session.revoke at_)
      (Session.revoke_id at_) }

/-- The transaction of `terminateAllForUser`, from the families and sessions it found. -/
def terminateAll (reason : String) (at_ : Int) (families : List TokenFamilyId)
    (sessions : List SessionId) : AuthnStore :=
  { store with
    tokenFamilies := store.revokeFamilies families reason at_
    sessions := store.sessions.update
      (fun row => sessions.contains row.id && row.status = .active) (Session.revoke at_)
      (Session.revoke_id at_) }

/-- What the second `UPDATE` of `revokeForReuse` finds. -/
def tokensOfFamily (familyId : TokenFamilyId) : List RefreshToken :=
  store.refreshTokens.select fun row => row.familyId = familyId

/-- The first `UPDATE` of `revokeForReuse`. -/
def revokeFamily (id : TokenFamilyId) (at_ : Int) : Table TokenFamily TokenFamilyId (·.id) :=
  store.tokenFamilies.update (fun row => row.id = id) (TokenFamily.revoke "reuse_detected" at_)
    (TokenFamily.revoke_id "reuse_detected" at_)

/-- The tokens among those found, revoked. -/
def revokeTokens (found : List String) : Table RefreshToken String (·.id) :=
  store.refreshTokens.update (fun row => found.contains row.id) RefreshToken.revoke
    RefreshToken.revoke_id

/-- The transaction of `revokeForReuse`, from the tokens it found. -/
def revokeForReuse (id : TokenFamilyId) (at_ : Int) (event : ReuseEvent) (found : List String) :
    AuthnStore :=
  { store with
    tokenFamilies := store.revokeFamily id at_
    refreshTokens := store.revokeTokens found
    outbox := store.outbox ++ [⟨id.value, "authn.refresh_token_reused", event, at_⟩] }

/-- `DrizzleRefreshTokensRepository.findByHash`. -/
def findToken (tokenHash : String) : Option RefreshToken :=
  (store.refreshTokens.select fun row => row.tokenHash = tokenHash).head?

/-- `DrizzleRefreshTokensRepository.findActiveByFamily`. -/
def findActiveToken (familyId : TokenFamilyId) : Option RefreshToken :=
  (store.refreshTokens.select fun row => row.familyId = familyId && row.status = .active).head?

/-- Whether the `UPDATE` of `rotate` finds the presented token active. -/
def rotates (presentedId : String) : Bool :=
  store.refreshTokens.rows.any fun row => row.id = presentedId && row.status = .active

/-- The presented token used, if it is active. -/
def consumeToken (presentedId : String) (at_ : Int) : Table RefreshToken String (·.id) :=
  store.refreshTokens.update (fun row => row.id = presentedId && row.status = .active)
    (RefreshToken.consume at_) (RefreshToken.consume_id at_)

/-- `DrizzleRefreshTokensRepository.rotate`; `none` when the successor is refused, which takes the
    whole transaction back. -/
def rotate (presentedId : String) (successor : RefreshToken) (at_ : Int) :
    AuthnStore × Option Bool :=
  if !store.rotates presentedId then (store, some false)
  else if store.admitsToken successor then
    ({ store with refreshTokens := insertRow (store.consumeToken presentedId at_) successor },
      some true)
  else (store, none)

/-- `DrizzleMembershipsRepository.findActiveByUser`: the membership joined first, all that is
    read of them. -/
def firstActiveMembership (userId : UserId) : Option Membership :=
  (store.memberships.filter fun row => row.userId = userId && row.status = .active).foldl
    (fun first row => match first with
      | some earlier => if row.joinedAt < earlier.joinedAt then some row else some earlier
      | none => some row) none

/-! ## Redis -/

/-- `RedisRefreshGraceCache.get`. -/
def graceGet (hash : String) : Option GracePair :=
  if store.redisUp then
    ((store.graceCache.get hash).filter fun entry => store.nowMs < entry.expiresMs).map (·.pair)
  else none

/-- `RedisRefreshGraceCache.put`. -/
def gracePut (hash : String) (pair : GracePair) (ttlSeconds : Nat) : AuthnStore :=
  if ttlSeconds = 0 ∨ store.redisUp = false then store
  else { store with
    graceCache := store.graceCache.overwrite ⟨hash, pair, store.nowMs + ttlSeconds * 1000⟩ }

/-- `RedisRevocationStore.revoke`. -/
def revokeSubject (subject : String) (ttlSeconds : Nat) : AuthnStore :=
  if store.redisUp then
    { store with
      revoked := store.revoked.overwrite ⟨subject, store.nowMs + (max 1 ttlSeconds : Nat) * 1000⟩ }
  else store

/-- `RedisRevocationStore.isRevoked`. -/
def isRevoked (subject : String) : Bool :=
  if store.redisUp then
    ((store.revoked.get subject).filter fun entry => store.nowMs < entry.expiresMs).isSome
  else true

/-- The lockout counter of a key that is still in its window. -/
def lockoutCount (key : String) : Option LockoutCount :=
  (store.lockouts.get key).filter fun entry => store.nowMs < entry.expiresMs

/-- `RedisLockoutStore.isLocked`. -/
def isLocked (key : String) (policy : LockoutPolicy) : Bool :=
  store.redisUp && policy.threshold ≤ ((store.lockoutCount key).map (·.count)).getD 0

/-- `RedisLockoutStore.registerFailure`; nothing reads the state it returns. -/
def registerFailure (key : String) (policy : LockoutPolicy) : AuthnStore :=
  if store.redisUp then
    { store with
      lockouts := store.lockouts.overwrite
        (match store.lockoutCount key with
          | some entry => ⟨key, entry.count + 1, entry.expiresMs⟩
          | none => ⟨key, 1, store.nowMs + policy.windowSeconds * 1000⟩) }
  else store

/-- `RedisLockoutStore.reset`. -/
def resetLockout (key : String) : AuthnStore :=
  if store.redisUp then { store with lockouts := store.lockouts.delete fun row => row.key = key }
  else store

end AuthnStore

/-! ## Operations -/

/-- The settings of an installation, and what it uses of the cryptographic libraries: SHA-256, the
    password hash, and what the second factor uses.  The environment admits positive lifetimes of
    a session only. -/
structure AuthnSettings where
  keys : KeySettings
  refreshTtlSeconds : Nat
  refreshTtl_pos : 0 < refreshTtlSeconds
  graceSeconds : Nat
  accountLockout : LockoutPolicy
  ipLockout : LockoutPolicy
  publicCredentialEmail : Option String
  crypto : Crypto
  sha256 : String → String
  passwordMatches : String → String → Bool
  toLowerCase : String → String

inductive AuthnOp where
  | now
  | key (op : KeyOp)
  | identity (op : IdentityOp)
  | findUserByEmail (email : String)
  | firstActiveMembership (userId : UserId)
  | createLogin (session : Session) (family : TokenFamily) (token : RefreshToken)
  | findSession (id : SessionId)
  | touch (id : SessionId) (at_ : Int)
  | elevate (id : SessionId) (aal : Nat) (authTime : Int)
  | revokeSession (id : SessionId) (at_ : Int)
  | activeFamiliesOfSession (sessionId : SessionId)
  | terminateSession (sessionId : SessionId) (reason : String) (at_ : Int)
      (found : List TokenFamilyId)
  | activeFamiliesOfUser (userId : UserId)
  | activeSessionsOfUser (userId : UserId)
  | terminateAll (reason : String) (at_ : Int) (families : List TokenFamilyId)
      (sessions : List SessionId)
  | findFamily (id : TokenFamilyId)
  | tokensOfFamily (id : TokenFamilyId)
  | revokeForReuse (id : TokenFamilyId) (at_ : Int) (event : ReuseEvent) (found : List String)
  | findToken (tokenHash : String)
  | findActiveToken (familyId : TokenFamilyId)
  | rotate (presentedId : String) (successor : RefreshToken) (at_ : Int)
  | graceGet (hash : String)
  | gracePut (hash : String) (pair : GracePair) (ttlSeconds : Nat)
  | revokeSubject (subject : String) (ttlSeconds : Nat)
  | isRevoked (subject : String)
  | isLocked (key : String) (policy : LockoutPolicy)
  | registerFailure (key : String) (policy : LockoutPolicy)
  | resetLockout (key : String)
  | verifyToken (token : Jwt)

def AuthnOp.Answer : AuthnOp → Type
  | now => Int
  | key op => op.Answer
  | identity op => op.Answer
  | findUserByEmail _ => Option User
  | firstActiveMembership _ => Option Membership
  | createLogin _ _ _ => Bool
  | findSession _ => Option Session
  | touch _ _ => Unit
  | elevate _ _ _ => Bool
  | revokeSession _ _ => Unit
  | activeFamiliesOfSession _ => List TokenFamilyId
  | terminateSession _ _ _ _ => Unit
  | activeFamiliesOfUser _ => List TokenFamilyId
  | activeSessionsOfUser _ => List SessionId
  | terminateAll _ _ _ _ => Unit
  | findFamily _ => Option TokenFamily
  | tokensOfFamily _ => List String
  | revokeForReuse _ _ _ _ => Unit
  | findToken _ => Option RefreshToken
  | findActiveToken _ => Option RefreshToken
  | rotate _ _ _ => Option Bool
  | graceGet _ => Option GracePair
  | gracePut _ _ _ => Unit
  | revokeSubject _ _ => Unit
  | isRevoked _ => Bool
  | isLocked _ _ => Bool
  | registerFailure _ _ => Unit
  | resetLockout _ => Unit
  | verifyToken _ => Except VerifyError VerifiedClaims

/-- What the operations do.  All parts of the store read one clock. -/
def AuthnStore.exec (settings : AuthnSettings) :
    (op : AuthnOp) → AuthnStore → AuthnStore × op.Answer
  | .now, store => (store, store.nowMs)
  | .key op, store =>
    let (keys, answer) := settings.keys.exec op { store.keys with nowMs := store.nowMs }
    ({ store with keys := keys }, answer)
  | .identity op, store =>
    let (identity, answer) :=
      IdentityStore.exec settings.crypto op { store.identity with nowMs := store.nowMs }
    ({ store with identity := identity }, answer)
  | .findUserByEmail email, store => (store, store.identity.users.find? (·.email = email))
  | .firstActiveMembership userId, store => (store, store.firstActiveMembership userId)
  | .createLogin session family token, store => store.createLogin session family token
  | .findSession id, store => (store, store.sessions.get id)
  | .touch id at_, store => (store.touch id at_, ())
  | .elevate id aal authTime, store => store.elevate id aal authTime
  | .revokeSession id at_, store => (store.revokeSession id at_, ())
  | .activeFamiliesOfSession sessionId, store => (store, store.activeFamiliesOfSession sessionId)
  | .terminateSession sessionId reason at_ found, store =>
    (store.terminateSession sessionId reason at_ found, ())
  | .activeFamiliesOfUser userId, store => (store, store.activeFamiliesOfUser userId)
  | .activeSessionsOfUser userId, store => (store, store.activeSessionsOfUser userId)
  | .terminateAll reason at_ families sessions, store =>
    (store.terminateAll reason at_ families sessions, ())
  | .findFamily id, store => (store, store.tokenFamilies.get id)
  | .tokensOfFamily id, store => (store, (store.tokensOfFamily id).map (·.id))
  | .revokeForReuse id at_ event found, store => (store.revokeForReuse id at_ event found, ())
  | .findToken tokenHash, store => (store, store.findToken tokenHash)
  | .findActiveToken familyId, store => (store, store.findActiveToken familyId)
  | .rotate presentedId successor at_, store => store.rotate presentedId successor at_
  | .graceGet hash, store => (store, store.graceGet hash)
  | .gracePut hash pair ttlSeconds, store => (store.gracePut hash pair ttlSeconds, ())
  | .revokeSubject subject ttlSeconds, store => (store.revokeSubject subject ttlSeconds, ())
  | .isRevoked subject, store => (store, store.isRevoked subject)
  | .isLocked key policy, store => (store, store.isLocked key policy)
  | .registerFailure key policy, store => (store.registerFailure key policy, ())
  | .resetLockout key, store => (store.resetLockout key, ())
  | .verifyToken token, store =>
    let (result, jwks) :=
      settings.keys.verify { store.keys with nowMs := store.nowMs } store.jwks token
    ({ store with jwks := jwks }, result)

abbrev AuthnProc (α : Type) := Proc AuthnOp AuthnOp.Answer α

/-! ## Over time -/

/-- A token's row later on: the same token, and not active again once it was not. -/
structure RefreshToken.Later (token token' : RefreshToken) : Prop where
  familyId : token'.familyId = token.familyId
  tokenHash : token'.tokenHash = token.tokenHash
  generation : token'.generation = token.generation
  expiresAt : token'.expiresAt = token.expiresAt
  active : token'.status = .active → token.status = .active

structure TokenFamily.Later (family family' : TokenFamily) : Prop where
  sessionId : family'.sessionId = family.sessionId
  active : family'.status = .active → family.status = .active

structure Session.Later (session session' : Session) : Prop where
  userId : session'.userId = session.userId
  expiresAt : session'.expiresAt = session.expiresAt
  active : session'.status = .active → session.status = .active

theorem RefreshToken.Later.refl (token : RefreshToken) : token.Later token :=
  ⟨rfl, rfl, rfl, rfl, fun h => h⟩

theorem RefreshToken.Later.trans {a b c : RefreshToken} (hab : a.Later b) (hbc : b.Later c) :
    a.Later c :=
  ⟨hbc.familyId.trans hab.familyId, hbc.tokenHash.trans hab.tokenHash,
    hbc.generation.trans hab.generation, hbc.expiresAt.trans hab.expiresAt,
    fun h => hab.active (hbc.active h)⟩

theorem TokenFamily.Later.refl (family : TokenFamily) : family.Later family := ⟨rfl, fun h => h⟩

theorem TokenFamily.Later.trans {a b c : TokenFamily} (hab : a.Later b) (hbc : b.Later c) :
    a.Later c :=
  ⟨hbc.sessionId.trans hab.sessionId, fun h => hab.active (hbc.active h)⟩

theorem Session.Later.refl (session : Session) : session.Later session :=
  ⟨rfl, rfl, fun h => h⟩

theorem Session.Later.trans {a b c : Session} (hab : a.Later b) (hbc : b.Later c) : a.Later c :=
  ⟨hbc.userId.trans hab.userId, hbc.expiresAt.trans hab.expiresAt,
    fun h => hab.active (hbc.active h)⟩

theorem RefreshToken.later_consume (at_ : Int) (token : RefreshToken) :
    token.Later (token.consume at_) :=
  ⟨rfl, rfl, rfl, rfl, fun h => by cases h⟩

theorem RefreshToken.later_revoke (token : RefreshToken) : token.Later token.revoke :=
  ⟨rfl, rfl, rfl, rfl, fun h => by cases h⟩

theorem RefreshToken.later_ite {p : Prop} [Decidable p] (token : RefreshToken)
    {token' : RefreshToken}
    (h : token.Later token') : token.Later (if p then token' else token) := by
  split_ifs
  · exact h
  · exact .refl token

theorem TokenFamily.later_revoke (reason : String) (at_ : Int) (family : TokenFamily) :
    family.Later (family.revoke reason at_) :=
  ⟨rfl, fun h => by cases h⟩

theorem Session.later_touch (at_ : Int) (session : Session) : session.Later (session.touch at_) :=
  ⟨rfl, rfl, fun h => h⟩

theorem Session.later_elevate (aal : Nat) (authTime : Int) (session : Session) :
    session.Later (session.elevate aal authTime) :=
  ⟨rfl, rfl, fun h => h⟩

theorem Session.later_revoke (at_ : Int) (session : Session) :
    session.Later (session.revoke at_) :=
  ⟨rfl, rfl, fun h => by cases h⟩

/-- Nothing is lost, and what was revoked or used stays so. -/
structure AuthnStore.Later (store store' : AuthnStore) : Prop where
  sessions : store.sessions.Evolves Session.Later store'.sessions
  tokenFamilies : store.tokenFamilies.Evolves TokenFamily.Later store'.tokenFamilies
  refreshTokens : store.refreshTokens.Evolves RefreshToken.Later store'.refreshTokens

namespace AuthnStore

theorem Later.of_eq {store store' : AuthnStore} (hsessions : store'.sessions = store.sessions)
    (hfamilies : store'.tokenFamilies = store.tokenFamilies)
    (htokens : store'.refreshTokens = store.refreshTokens) : store.Later store' where
  sessions := hsessions ▸ .refl Session.Later.refl _
  tokenFamilies := hfamilies ▸ .refl TokenFamily.Later.refl _
  refreshTokens := htokens ▸ .refl RefreshToken.Later.refl _

theorem Later.refl (store : AuthnStore) : store.Later store := .of_eq rfl rfl rfl

theorem Later.trans {a b c : AuthnStore} (hab : a.Later b) (hbc : b.Later c) : a.Later c where
  sessions := hab.sessions.trans hbc.sessions Session.Later.trans
  tokenFamilies := hab.tokenFamilies.trans hbc.tokenFamilies TokenFamily.Later.trans
  refreshTokens := hab.refreshTokens.trans hbc.refreshTokens RefreshToken.Later.trans

theorem insertRow_evolves {ρ κ : Type} [DecidableEq κ] {key : ρ → κ} {R : ρ → ρ → Prop}
    (hR : ∀ row, R row row) {table : Table ρ κ key} {row : ρ} (h : table.get (key row) = none) :
    table.Evolves R (insertRow table row) :=
  .insert (fun _ _ h => h) hR h

theorem get_insertRow {ρ κ : Type} [DecidableEq κ] {key : ρ → κ} {table : Table ρ κ key} {row : ρ}
    (h : table.get (key row) = none) : (insertRow table row).get (key row) = some row := by
  refine (Table.get_upsert (fun _ _ h => h) (key row)).trans ?_
  rw [if_pos rfl, h]
  rfl

variable {store : AuthnStore}

theorem admitsToken_iff {token : RefreshToken} : store.admitsToken token = true ↔
    ∀ row ∈ store.refreshTokens.rows, row.id ≠ token.id ∧ row.tokenHash ≠ token.tokenHash := by
  simp [admitsToken]

theorem get_of_admitsToken {token : RefreshToken} (h : store.admitsToken token = true) :
    store.refreshTokens.get token.id = none :=
  Table.get_eq_none.mpr fun row hrow => (admitsToken_iff.mp h row hrow).1

theorem get_consumeToken (presentedId : String) (at_ : Int) (id : String) :
    (store.consumeToken presentedId at_).get id = (store.refreshTokens.get id).map fun row =>
      if row.id = presentedId && row.status = .active then row.consume at_ else row :=
  Table.get_update _ _

theorem consumeToken_later (presentedId : String) (at_ : Int) :
    store.refreshTokens.Evolves RefreshToken.Later (store.consumeToken presentedId at_) :=
  .update (RefreshToken.consume_id at_) RefreshToken.Later.refl fun row _ => row.later_consume at_

/-- What the grace cache holds after a put: what it held, or the new pair. -/
theorem get_gracePut {hash hash' : String} {pair : GracePair} {ttlSeconds : Nat}
    {entry : GraceEntry}
    (h : (store.gracePut hash pair ttlSeconds).graceCache.get hash' = some entry) :
    store.graceCache.get hash' = some entry ∨ hash' = hash ∧ entry.pair = pair := by
  unfold gracePut at h
  split_ifs at h with hput
  · exact Or.inl h
  · rw [Table.get_overwrite] at h
    by_cases hkey : hash' = hash
    · rw [if_pos hkey] at h
      obtain rfl := Option.some.inj h
      exact Or.inr ⟨hkey, rfl⟩
    · rw [if_neg hkey] at h
      exact Or.inl h

theorem revokeFamilies_later (found : List TokenFamilyId) (reason : String) (at_ : Int) :
    store.tokenFamilies.Evolves TokenFamily.Later (store.revokeFamilies found reason at_) :=
  .update (TokenFamily.revoke_id reason at_) TokenFamily.Later.refl fun row _ =>
    row.later_revoke reason at_

theorem revokeFamily_later (id : TokenFamilyId) (at_ : Int) :
    store.tokenFamilies.Evolves TokenFamily.Later (store.revokeFamily id at_) :=
  .update (TokenFamily.revoke_id "reuse_detected" at_) TokenFamily.Later.refl fun row _ =>
    row.later_revoke "reuse_detected" at_

theorem get_revokeFamily (id : TokenFamilyId) (at_ : Int) (f : TokenFamilyId) :
    (store.revokeFamily id at_).get f = (store.tokenFamilies.get f).map fun row =>
      if row.id = id then row.revoke "reuse_detected" at_ else row := by
  refine (Table.get_update _ _).trans ?_
  simp only [decide_eq_true_eq]

theorem revokeTokens_later (found : List String) :
    store.refreshTokens.Evolves RefreshToken.Later (store.revokeTokens found) :=
  .update RefreshToken.revoke_id RefreshToken.Later.refl fun row _ => row.later_revoke

theorem get_touch (id : SessionId) (at_ : Int) (k : SessionId) :
    (store.touch id at_).sessions.get k = (store.sessions.get k).map fun row =>
      if row.id = id then row.touch at_ else row := by
  unfold touch
  rw [Table.get_update]
  simp only [decide_eq_true_eq]

theorem revokeSessions_later (p : Session → Bool) (at_ : Int) :
    store.sessions.Evolves Session.Later
      (store.sessions.update p (Session.revoke at_) (Session.revoke_id at_)) :=
  .update (Session.revoke_id at_) Session.Later.refl fun row _ => row.later_revoke at_

/-- What an operation leaves as it is: the clock, whether Redis is up, and each of the tables of
    Redis and of the identity module that it is not one of the writers of. -/
structure Frame (op : AuthnOp) (store store' : AuthnStore) : Prop where
  nowMs : store'.nowMs = store.nowMs
  redisUp : store'.redisUp = store.redisUp
  identity : (∀ op', op ≠ .identity op') → store'.identity = store.identity
  graceCache : (∀ hash pair ttlSeconds, op ≠ .gracePut hash pair ttlSeconds) →
    store'.graceCache = store.graceCache
  revoked : (∀ subject ttlSeconds, op ≠ .revokeSubject subject ttlSeconds) →
    store'.revoked = store.revoked
  lockouts : (∀ key policy, op ≠ .registerFailure key policy) →
    (∀ key, op ≠ .resetLockout key) → store'.lockouts = store.lockouts

/-- What touches the tables of the sessions only. -/
theorem Frame.of_eq {op : AuthnOp} {store store' : AuthnStore} (hnow : store'.nowMs = store.nowMs)
    (hup : store'.redisUp = store.redisUp) (hidentity : store'.identity = store.identity)
    (hgrace : store'.graceCache = store.graceCache) (hrevoked : store'.revoked = store.revoked)
    (hlockouts : store'.lockouts = store.lockouts) : Frame op store store' :=
  ⟨hnow, hup, fun _ => hidentity, fun _ => hgrace, fun _ => hrevoked, fun _ _ => hlockouts⟩

theorem Frame.refl (op : AuthnOp) (store : AuthnStore) : Frame op store store :=
  .of_eq rfl rfl rfl rfl rfl rfl

theorem exec_frame (settings : AuthnSettings) (op : AuthnOp) (store : AuthnStore) :
    Frame op store (store.exec settings op).1 := by
  cases op with
  | identity op' =>
    exact ⟨rfl, rfl, fun h => absurd rfl (h op'), fun _ => rfl, fun _ => rfl, fun _ _ => rfl⟩
  | createLogin session family token =>
    show Frame _ store (store.createLogin session family token).1
    unfold createLogin
    split_ifs
    · exact .of_eq rfl rfl rfl rfl rfl rfl
    · exact .refl _ store
  | rotate presentedId successor at_ =>
    show Frame _ store (store.rotate presentedId successor at_).1
    unfold rotate
    split_ifs
    · exact .refl _ store
    · exact .of_eq rfl rfl rfl rfl rfl rfl
    · exact .refl _ store
  | gracePut hash pair ttlSeconds =>
    show Frame _ store (store.gracePut hash pair ttlSeconds)
    unfold gracePut
    split_ifs
    · exact .refl _ store
    · exact ⟨rfl, rfl, fun _ => rfl, fun h => absurd rfl (h hash pair ttlSeconds), fun _ => rfl,
        fun _ _ => rfl⟩
  | revokeSubject subject ttlSeconds =>
    show Frame _ store (store.revokeSubject subject ttlSeconds)
    unfold revokeSubject
    split_ifs
    · exact ⟨rfl, rfl, fun _ => rfl, fun _ => rfl, fun h => absurd rfl (h subject ttlSeconds),
        fun _ _ => rfl⟩
    · exact .refl _ store
  | registerFailure key policy =>
    show Frame _ store (store.registerFailure key policy)
    unfold registerFailure
    split_ifs
    · exact ⟨rfl, rfl, fun _ => rfl, fun _ => rfl, fun _ => rfl,
        fun h => absurd rfl (h key policy)⟩
    · exact .refl _ store
  | resetLockout key =>
    show Frame _ store (store.resetLockout key)
    unfold resetLockout
    split_ifs
    · exact ⟨rfl, rfl, fun _ => rfl, fun _ => rfl, fun _ => rfl, fun _ h => absurd rfl (h key)⟩
    · exact .refl _ store
  | _ => exact .of_eq rfl rfl rfl rfl rfl rfl

/-- Every operation leads to a later store. -/
theorem exec_later (settings : AuthnSettings) (op : AuthnOp) (store : AuthnStore) :
    store.Later (store.exec settings op).1 := by
  cases op with
  | createLogin session family token =>
    show store.Later (store.createLogin session family token).1
    unfold createLogin
    split_ifs with hfree
    · obtain ⟨hsession, hfamily, htoken⟩ := hfree
      exact ⟨insertRow_evolves Session.Later.refl hsession,
        insertRow_evolves TokenFamily.Later.refl hfamily,
        insertRow_evolves RefreshToken.Later.refl (get_of_admitsToken htoken)⟩
    · exact .refl store
  | touch id at_ =>
    exact ⟨.update (Session.touch_id at_) Session.Later.refl fun row _ => row.later_touch at_,
      .refl TokenFamily.Later.refl _, .refl RefreshToken.Later.refl _⟩
  | elevate id aal authTime =>
    exact ⟨.update (Session.elevate_id aal authTime) Session.Later.refl fun row _ =>
      row.later_elevate aal authTime,
      .refl TokenFamily.Later.refl _, .refl RefreshToken.Later.refl _⟩
  | revokeSession id at_ =>
    exact ⟨revokeSessions_later _ at_, .refl TokenFamily.Later.refl _,
      .refl RefreshToken.Later.refl _⟩
  | terminateSession sessionId reason at_ found =>
    exact ⟨revokeSessions_later _ at_, revokeFamilies_later found reason at_,
      .refl RefreshToken.Later.refl _⟩
  | terminateAll reason at_ families sessions =>
    exact ⟨revokeSessions_later _ at_, revokeFamilies_later families reason at_,
      .refl RefreshToken.Later.refl _⟩
  | revokeForReuse id at_ event found =>
    exact ⟨.refl Session.Later.refl _, revokeFamily_later id at_, revokeTokens_later found⟩
  | rotate presentedId successor at_ =>
    show store.Later (store.rotate presentedId successor at_).1
    unfold rotate
    split_ifs with hrotates hfree
    · exact .refl store
    · refine ⟨.refl Session.Later.refl _, .refl TokenFamily.Later.refl _, ?_⟩
      refine (consumeToken_later presentedId at_).trans
        (insertRow_evolves RefreshToken.Later.refl ?_) RefreshToken.Later.trans
      rw [get_consumeToken, get_of_admitsToken hfree]
      rfl
    · exact .refl store
  | gracePut hash pair ttlSeconds =>
    show store.Later (store.gracePut hash pair ttlSeconds)
    unfold gracePut
    split_ifs
    · exact .refl store
    · exact .of_eq rfl rfl rfl
  | revokeSubject subject ttlSeconds =>
    show store.Later (store.revokeSubject subject ttlSeconds)
    unfold revokeSubject
    split_ifs
    · exact .of_eq rfl rfl rfl
    · exact .refl store
  | registerFailure key policy =>
    show store.Later (store.registerFailure key policy)
    unfold registerFailure
    split_ifs
    · exact .of_eq rfl rfl rfl
    · exact .refl store
  | resetLockout key =>
    show store.Later (store.resetLockout key)
    unfold resetLockout
    split_ifs
    · exact .of_eq rfl rfl rfl
    · exact .refl store
  | _ => exact .of_eq rfl rfl rfl

end AuthnStore

end AccessCore
