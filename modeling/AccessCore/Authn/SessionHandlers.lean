/-
  Login, refresh, step-up, termination and the guard (`authn/application/login.ts`, `refresh.ts`,
  `step-up.ts`, `session-terminator.ts`, `authn/interface/access-token.guard.ts`,
  `authn/infrastructure/credentials/identity-credentials.ts`) as programs over the stores of
  `Authn.Sessions`.

  The token issuer and the second factor are the programs of their own modules, over this wider
  interface.  The random values a handler draws are arguments of its program.  The pause between
  two attempts of `replayFromGrace` is no operation: others may run between any two.
-/
import AccessCore.Authn.Sessions

namespace AccessCore

open Interleave

/-! ## The parts of the handlers -/

namespace AuthnProc

def now : AuthnProc Int := .ask AuthnOp.now

/-- A program of the signing keys. -/
def ofKeys {α : Type} (p : KeyProc α) : AuthnProc α := p.via AuthnOp.key fun _ answer => answer

/-- A program of the identity stores. -/
def ofIdentity {α : Type} (p : IdentityProc α) : AuthnProc α :=
  p.via AuthnOp.identity fun _ answer => answer

end AuthnProc

/-- `AccessTokenIssuer.issue`. -/
def AccessTokens.issue (settings : AuthnSettings) (claims : AccessTokenClaims) (jti : String) :
    AuthnProc IssuedAccessToken :=
  .ofKeys (JwtAccessTokenIssuer.issue settings.keys.keyName settings.keys.tokens claims jti)

namespace Lockout

def isLocked (key : String) (policy : LockoutPolicy) : AuthnProc Bool :=
  .ask (AuthnOp.isLocked key policy)

def registerFailure (key : String) (policy : LockoutPolicy) : AuthnProc Unit :=
  .ask (AuthnOp.registerFailure key policy)

def reset (key : String) : AuthnProc Unit := .ask (AuthnOp.resetLockout key)

/-- An operation on a key that may be `null`. -/
def whenKey (key : Option String) (act : String → AuthnProc Unit) : AuthnProc Unit :=
  match key with
  | some key => act key
  | none => return ()

/-- `key !== null && (await this.lockout.isLocked(key, policy))`. -/
def isLockedKey (key : Option String) (policy : LockoutPolicy) : AuthnProc Bool :=
  match key with
  | some key => isLocked key policy
  | none => return false

end Lockout

/-- `RefreshToken` of `generate`: the random text, whose hash is stored. -/
structure GeneratedRefreshToken where
  raw : String
  hash : String
deriving DecidableEq, Repr

/-- `Sha256RefreshTokenGenerator.generate`, with the text it draws. -/
def RefreshTokenGenerator.generate (settings : AuthnSettings) (raw : String) :
    GeneratedRefreshToken :=
  ⟨raw, settings.sha256 raw⟩

/-! ## Login -/

/-- The whitespace of JavaScript. -/
def isWhitespace (c : Char) : Bool :=
  (9 ≤ c.toNat && c.toNat ≤ 13) || (0x2000 ≤ c.toNat && c.toNat ≤ 0x200a) ||
    [0x20, 0xa0, 0x1680, 0x2028, 0x2029, 0x202f, 0x205f, 0x3000, 0xfeff].contains c.toNat

/-- `text.trim()`. -/
def trim (text : String) : String :=
  String.ofList ((text.toList.dropWhile isWhitespace).reverse.dropWhile isWhitespace).reverse

/-- `input.trim().toLowerCase()`. -/
def AuthnSettings.normalize (settings : AuthnSettings) (input : String) : String :=
  settings.toLowerCase (trim input)

/-- `Email.pattern`: a local part, and a domain with a dot inside. -/
def matchesEmailPattern (text : List Char) : Bool :=
  match splitAtFirst '@' text with
  | some (local_, domain) =>
    local_ ≠ [] && !(local_.any isWhitespace) && !(domain.any isWhitespace) &&
      !(domain.contains '@') && (domain.drop 1).dropLast.contains '.'
  | none => false

/-- `Email.create`. -/
def Email.create (settings : AuthnSettings) (input : String) : Option String :=
  let normalized := settings.normalize input
  if 254 < Rfc6238Totp.textLength normalized || !matchesEmailPattern normalized.toList then none
  else some normalized

structure CredentialCheck where
  userId : UserId
  aal : Nat
  mfaRequired : Bool
deriving DecidableEq, Repr

/-- `IdentityCredentials.verify`; `dummyVerify` only takes time. -/
def IdentityCredentials.verify (settings : AuthnSettings) (email password : String) :
    AuthnProc (Option CredentialCheck) :=
  match Email.create settings email with
  | none => return none
  | some email => do
    let user : Option User ← .ask (AuthnOp.findUserByEmail email)
    match user with
    | none => return none
    | some user =>
      if !settings.passwordMatches password user.passwordHash || user.status ≠ .active then
        return none
      else do
        let credential ← AuthnProc.ofIdentity (MfaCredentials.findActiveTotpByUser user.id)
        return some ⟨user.id, 1, credential.isSome⟩

structure LoginCommand where
  email : String
  password : String
  userAgent : Option String
  ip : Option String

/-- What a login draws. -/
structure LoginDraws where
  sessionId : SessionId
  familyId : TokenFamilyId
  tokenId : String
  jti : String
  raw : String

structure LoginResult where
  accessToken : Jwt
  refreshToken : String
  expiresIn : Nat
  mfaRequired : Bool
deriving DecidableEq, Repr

inductive LoginError where
  | invalidCredentials
  | locked
deriving DecidableEq, Repr

namespace LoginHandler

variable (settings : AuthnSettings) (command : LoginCommand) (draws : LoginDraws)

/-- The rest of `execute`, once the credentials are right. -/
def open_ (check : CredentialCheck) : AuthnProc (Except LoginError LoginResult) := do
  let now ← AuthnProc.now
  let membership : Option Membership ← .ask (AuthnOp.firstActiveMembership check.userId)
  let orgId := membership.map (·.orgId)
  let refreshExpiresAt := now + settings.refreshTtlSeconds * 1000
  let accessToken ← AccessTokens.issue settings
    ⟨check.userId.value, draws.sessionId.value, orgId.map (·.value), check.aal, now⟩ draws.jti
  let refresh := RefreshTokenGenerator.generate settings draws.raw
  let created : Bool ← .ask (AuthnOp.createLogin
    ⟨draws.sessionId, check.userId, orgId, check.aal, now, .active, none, command.userAgent,
      command.ip, now, now, refreshExpiresAt, none⟩
    ⟨draws.familyId, check.userId, draws.sessionId, .active, now, none, none⟩
    ⟨draws.tokenId, draws.familyId, refresh.hash, 1, .active, now, refreshExpiresAt, none⟩)
  if created then
    return .ok ⟨accessToken.token, refresh.raw, accessToken.expiresInSeconds, check.mfaRequired⟩
  else .thrown "duplicate key value violates unique constraint"

def execute : AuthnProc (Except LoginError LoginResult) := do
  let email := settings.normalize command.email
  let accountKey :=
    if some email = settings.publicCredentialEmail then none else some ("acct:" ++ email)
  let ipKey := (command.ip.filter (· ≠ "")).map ("ip:" ++ ·)
  let lockedByAccount ← Lockout.isLockedKey accountKey settings.accountLockout
  let lockedByIp ← Lockout.isLockedKey ipKey settings.ipLockout
  if lockedByAccount || lockedByIp then return .error .locked
  else
    match ← IdentityCredentials.verify settings command.email command.password with
    | none => do
      Lockout.whenKey accountKey (Lockout.registerFailure · settings.accountLockout)
      Lockout.whenKey ipKey (Lockout.registerFailure · settings.ipLockout)
      return .error .invalidCredentials
    | some check => do
      Lockout.whenKey accountKey Lockout.reset
      Lockout.whenKey ipKey Lockout.reset
      open_ settings command draws check

end LoginHandler

/-! ## Refresh -/

/-- What a refresh draws. -/
structure RefreshDraws where
  tokenId : String
  jti : String
  raw : String

structure RefreshResult where
  accessToken : Jwt
  refreshToken : String
  expiresIn : Nat
deriving DecidableEq, Repr

inductive RefreshError where
  | invalid
  | reuse
deriving DecidableEq, Repr

namespace RefreshHandler

variable (settings : AuthnSettings) (draws : RefreshDraws)

/-- `RACE_RETRIES`. -/
def raceRetries : Nat := 6

def replayFromGrace (token : RefreshToken) (hash : String) :
    Nat → AuthnProc (Option RefreshResult)
  | 0 => return none
  | attempts + 1 => do
    let cached : Option GracePair ← .ask (AuthnOp.graceGet hash)
    match cached with
    | none => replayFromGrace token hash attempts
    | some cached =>
      let active : Option RefreshToken ← .ask (AuthnOp.findActiveToken token.familyId)
      match active with
      | none => return none
      | some active =>
        if active.generation = cached.successorGeneration then
          return some ⟨cached.accessToken, cached.refreshToken, cached.expiresIn⟩
        else return none

/-- The token that follows `token`. -/
def successorOf (token : RefreshToken) (session : Session) (now : Int) : RefreshToken :=
  ⟨draws.tokenId, token.familyId, (RefreshTokenGenerator.generate settings draws.raw).hash,
    token.generation + 1, .active, now, session.expiresAt, none⟩

/-- `tryRotate`, once the rotation is won. -/
def keep (token : RefreshToken) (session : Session) (hash : String) (now : Int)
    (access : IssuedAccessToken) : AuthnProc (Option RefreshResult) := do
  .ask (AuthnOp.touch session.id now)
  .ask (AuthnOp.gracePut hash
    ⟨access.token, draws.raw, access.expiresInSeconds, token.generation + 1⟩ settings.graceSeconds)
  return some ⟨access.token, draws.raw, access.expiresInSeconds⟩

def tryRotate (token : RefreshToken) (family : TokenFamily) (session : Session) (hash : String)
    (now : Int) : AuthnProc (Option RefreshResult) := do
  let access ← AccessTokens.issue settings
    ⟨family.userId.value, session.id.value, session.orgId.map (·.value), session.aal,
      session.authTime⟩ draws.jti
  let won : Option Bool ← .ask
    (AuthnOp.rotate token.id (successorOf settings draws token session now) now)
  match won with
  | none => .thrown "duplicate key value violates unique constraint"
  | some false => replayFromGrace token hash raceRetries
  | some true => keep settings draws token session hash now access

/-- `TokenFamiliesRepository.revokeForReuse`. -/
def revokeForReuse (id : TokenFamilyId) (at_ : Int) (event : ReuseEvent) : AuthnProc Unit := do
  let found : List String ← .ask (AuthnOp.tokensOfFamily id)
  .ask (AuthnOp.revokeForReuse id at_ event found)

/-- The end of `execute`, when the token has been used before. -/
def reuse (token : RefreshToken) (family : TokenFamily) (session : Session) (now : Int) :
    AuthnProc (Except RefreshError RefreshResult) := do
  revokeForReuse family.id now ⟨family.userId.value, family.sessionId.value, token.generation⟩
  .ask (AuthnOp.revokeSession session.id now)
  .ask (AuthnOp.revokeSubject ("sid:" ++ session.id.value) settings.keys.accessTokenTtlSeconds)
  return .error .reuse

/-- `execute`, once token, family and session are found to be good. -/
def exchange (token : RefreshToken) (family : TokenFamily) (session : Session) (hash : String)
    (now : Int) : AuthnProc (Except RefreshError RefreshResult) := do
  let result ← if token.status = .active then tryRotate settings draws token family session hash now
    else replayFromGrace token hash 1
  match result with
  | some result => return .ok result
  | none => reuse settings token family session now

variable {settings draws} in
theorem exchange_eq {token : RefreshToken} {family : TokenFamily} {session : Session}
    {hash : String} {now : Int} :
    exchange settings draws token family session hash now =
      ((if token.status = .active then tryRotate settings draws token family session hash now
        else replayFromGrace token hash 1) >>= fun result =>
          result.elim (reuse settings token family session now) fun result =>
            .done (.ok result)) := by
  have hafter : ∀ p : AuthnProc (Option RefreshResult), (p >>= fun result => match result with
      | some result => pure (Except.ok result)
      | none => reuse settings token family session now) = (p >>= fun result =>
        result.elim (reuse settings token family session now) fun result =>
          .done (.ok result)) := by
    intro p
    congr 1
    funext result
    cases result <;> rfl
  unfold exchange
  split_ifs
  · exact hafter _
  · exact hafter _

def execute (refreshToken : String) : AuthnProc (Except RefreshError RefreshResult) := do
  let now ← AuthnProc.now
  let hash := settings.sha256 refreshToken
  let token : Option RefreshToken ← .ask (AuthnOp.findToken hash)
  match token with
  | none => return .error .invalid
  | some token =>
    if token.expiresAt ≤ now then return .error .invalid
    else
      let family : Option TokenFamily ← .ask (AuthnOp.findFamily token.familyId)
      match family with
      | none => return .error .invalid
      | some family =>
        if family.status ≠ .active then return .error .invalid
        else
          let session : Option Session ← .ask (AuthnOp.findSession family.sessionId)
          match session with
          | none => return .error .invalid
          | some session =>
            if session.status ≠ .active || session.expiresAt ≤ now then return .error .invalid
            else exchange settings draws token family session hash now

end RefreshHandler

/-! ## Step-up -/

structure StepUpCommand where
  sessionId : String
  userId : String
  proof : SecondFactorProof

structure StepUpResult where
  accessToken : Jwt
  expiresIn : Nat
deriving DecidableEq, Repr

inductive StepUpError where
  | invalidSession
  | invalidFactor
  | locked
deriving DecidableEq, Repr

def SecondFactorProof.kind : SecondFactorProof → String
  | totp _ => "totp"
  | recovery _ => "recovery"

namespace StepUpHandler

/-- `STEP_UP_AAL`. -/
def stepUpAal : Nat := 2

variable (settings : AuthnSettings) (command : StepUpCommand) (jti : String)

/-- The rest of `execute`, once the second factor is right. -/
def elevate (session : Session) : AuthnProc (Except StepUpError StepUpResult) := do
  let now ← AuthnProc.now
  let _elevated : Bool ← .ask (AuthnOp.elevate session.id stepUpAal now)
  let token ← AccessTokens.issue settings
    ⟨session.userId.value, session.id.value, session.orgId.map (·.value), stepUpAal, now⟩ jti
  AuthnProc.ofIdentity (IdentityProc.appendAudit
    ⟨"mfa.step_up", session.orgId.map (·.value), some session.userId.value,
      [("factor", .text command.proof.kind), ("aal", .number stepUpAal)]⟩)
  return .ok ⟨token.token, token.expiresInSeconds⟩

def execute : AuthnProc (Except StepUpError StepUpResult) := do
  let session : Option Session ← .ask (AuthnOp.findSession ⟨command.sessionId⟩)
  match session with
  | none => return .error .invalidSession
  | some session =>
    if session.status ≠ .active || session.userId.value ≠ command.userId then
      return .error .invalidSession
    else do
      let lockoutKey := "mfa:" ++ session.userId.value
      if ← Lockout.isLocked lockoutKey settings.accountLockout then return .error .locked
      else do
        let verified ← AuthnProc.ofIdentity
          (IdentitySecondFactor.verify settings.crypto session.userId command.proof)
        if !verified then do
          Lockout.registerFailure lockoutKey settings.accountLockout
          AuthnProc.ofIdentity (IdentityProc.appendAudit
            ⟨"mfa.step_up_failed", session.orgId.map (·.value), some session.userId.value,
              [("factor", .text command.proof.kind)]⟩)
          return .error .invalidFactor
        else do
          Lockout.reset lockoutKey
          elevate settings command jti session

end StepUpHandler

/-! ## Termination -/

namespace SessionTerminator

variable (settings : AuthnSettings)

/-- `this.revocation.revoke` of a session. -/
def blocklist (sessionId : String) : AuthnProc Unit :=
  .ask (AuthnOp.revokeSubject ("sid:" ++ sessionId) settings.keys.accessTokenTtlSeconds)

/-- What `terminateSession` and `terminateSessionById` do, each with its reason. -/
def terminate (reason sessionId : String) : AuthnProc Unit := do
  let at_ ← AuthnProc.now
  let found : List TokenFamilyId ← .ask (AuthnOp.activeFamiliesOfSession ⟨sessionId⟩)
  .ask (AuthnOp.terminateSession ⟨sessionId⟩ reason at_ found)
  blocklist settings sessionId

def terminateSession : String → AuthnProc Unit := terminate settings "logout"

def terminateSessionById : String → AuthnProc Unit := terminate settings "session_revoked"

/-- The blocklist entries of `terminateAllForUser`, one after the other. -/
def blocklistAll : List SessionId → AuthnProc Unit
  | [] => return ()
  | sid :: sids => do
    blocklist settings sid.value
    blocklistAll sids

/-- `terminateAllForUser`; the sessions it has revoked. -/
def terminateAllForUser (userId : UserId) : AuthnProc (List SessionId) := do
  let at_ ← AuthnProc.now
  let families : List TokenFamilyId ← .ask (AuthnOp.activeFamiliesOfUser userId)
  let sids : List SessionId ← .ask (AuthnOp.activeSessionsOfUser userId)
  .ask (AuthnOp.terminateAll "logout_all" at_ families sids)
  blocklistAll settings sids
  return sids

end SessionTerminator

/-! ## The guard -/

/-- `AuthTokenClaims`, of an authenticated request. -/
structure AuthTokenClaims where
  sub : String
  sid : String
  org : Option String
  jti : String
  aal : Nat
  exp : Int
deriving DecidableEq, Repr

/-- `AccessTokenGuard.canActivate` on a bearer token; `none` is a 401. -/
def AccessTokenGuard.canActivate (token : Jwt) : AuthnProc (Option AuthTokenClaims) := do
  let result : Except VerifyError VerifiedClaims ← .ask (AuthnOp.verifyToken token)
  match result with
  | .error _ => return none
  | .ok claims =>
    match claims.sub, claims.sid, claims.jti, claims.exp with
    | some sub, some sid, some jti, some exp =>
      let revoked : Bool ← .ask (AuthnOp.isRevoked ("sid:" ++ sid))
      if revoked then return none
      else return some ⟨sub, sid, claims.org, jti, claims.aal.getD 0, exp⟩
    | _, _, _, _ => return none

/-! ## The machine -/

inductive AuthnCommand where
  | login (command : LoginCommand) (draws : LoginDraws)
  | refresh (refreshToken : String) (draws : RefreshDraws)
  | stepUp (command : StepUpCommand) (jti : String)
  | terminateSession (sessionId : String)
  | terminateSessionById (sessionId : String)
  | terminateAllForUser (userId : UserId)
  | revokeForReuse (id : TokenFamilyId) (at_ : Int) (event : ReuseEvent)
  | canActivate (token : Jwt)

inductive AuthnResult where
  | login (result : Except LoginError LoginResult)
  | refresh (result : Except RefreshError RefreshResult)
  | stepUp (result : Except StepUpError StepUpResult)
  | terminated (sids : List SessionId)
  | familyRevoked
  | authenticated (claims : Option AuthTokenClaims)

/-- What happens to the stores on its own. -/
inductive AuthnEvent where
  | clock (nowMs : Int)
  | redis (up : Bool)

/-- The requests of all users, with a clock that may read anything and a Redis that may be down. -/
def authnMachine (settings : AuthnSettings) :
    Machine AuthnCommand AuthnEvent AuthnOp AuthnOp.Answer AuthnStore AuthnResult where
  exec _ := AuthnStore.exec settings
  event
    | .clock nowMs, store => { store with nowMs := nowMs }
    | .redis up, store => { store with redisUp := up }
  program
    | .login command draws => do
      let result ← LoginHandler.execute settings command draws
      return .login result
    | .refresh refreshToken draws => do
      let result ← RefreshHandler.execute settings draws refreshToken
      return .refresh result
    | .stepUp command jti => do
      let result ← StepUpHandler.execute settings command jti
      return .stepUp result
    | .terminateSession sessionId => do
      SessionTerminator.terminateSession settings sessionId
      return .terminated [⟨sessionId⟩]
    | .terminateSessionById sessionId => do
      SessionTerminator.terminateSessionById settings sessionId
      return .terminated [⟨sessionId⟩]
    | .terminateAllForUser userId => do
      let sids ← SessionTerminator.terminateAllForUser settings userId
      return .terminated sids
    | .revokeForReuse id at_ event => do
      RefreshHandler.revokeForReuse id at_ event
      return .familyRevoked
    | .canActivate token => do
      let claims ← AccessTokenGuard.canActivate token
      return .authenticated claims

abbrev AuthnWorld := World AuthnOp AuthnStore
abbrev AuthnSystem := System AuthnCommand AuthnOp AuthnOp.Answer AuthnStore AuthnResult
abbrev AuthnMoves := List (Move AuthnCommand AuthnEvent)

/-- A run from a store. -/
def authnRun (settings : AuthnSettings) (store : AuthnStore) (moves : AuthnMoves) : AuthnSystem :=
  (authnMachine settings).run ⟨⟨store, []⟩, []⟩ moves

end AccessCore
