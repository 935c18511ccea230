/-
  What each call asks for, whatever the answers are.

  Besides the refresh, no call asks for a refresh token, every operation keeps the chains of
  `Authn.Rotation` by itself, and all tokens a call signs are for one session.  A refresh does so
  from the moment on at which it has read its session.
-/
import AccessCore.Authn.Rotation

namespace AccessCore

open Interleave

variable {settings : AuthnSettings} {sid : String}

/-- An operation whose arguments belong together in every store. -/
def Harmless (settings : AuthnSettings) (op : AuthnOp) : Prop :=
  ∀ store : AuthnStore, store.SoundOp settings op

/-- Whether an operation asks for the token with a hash. -/
def AuthnOp.asksFor (hash : String) : AuthnOp → Bool
  | .findToken tokenHash => tokenHash = hash
  | _ => false

/-- A token that is signed is for one session. -/
def KeyOp.signsFor (sid : String) : KeyOp → Prop
  | .sign input _ => input.2.sid = some sid
  | _ => True

def AuthnOp.signsFor (sid : String) : AuthnOp → Prop
  | .key op => op.signsFor sid
  | _ => True

/-- An entry of the blocklist is put there for the lifetime of an access token. -/
def AuthnOp.inTtl (settings : AuthnSettings) : AuthnOp → Prop
  | .revokeSubject _ ttlSeconds => ttlSeconds = settings.keys.accessTokenTtlSeconds
  | _ => True

/-- What the calls ask for that are no refreshes, with tokens for one session. -/
structure Aside (settings : AuthnSettings) (sid : String) (op : AuthnOp) : Prop where
  harmless : Harmless settings op
  asksFor : ∀ hash, op.asksFor hash = false
  inTtl : op.inTtl settings
  signsFor : op.signsFor sid

/-- The operations whose arguments nothing is asked of. -/
def AuthnOp.isPlain : AuthnOp → Bool
  | .key _ | .createLogin _ _ _ | .findToken _ | .rotate _ _ _ | .gracePut _ _ _
  | .revokeSubject _ _ => false
  | _ => true

theorem Aside.plain {op : AuthnOp} (h : op.isPlain = true) : Aside settings sid op := by
  cases op with
  | key op => cases h
  | createLogin session family token => cases h
  | findToken tokenHash => cases h
  | rotate presentedId successor at_ => cases h
  | gracePut hash pair ttlSeconds => cases h
  | revokeSubject subject ttlSeconds => cases h
  | _ => exact ⟨fun _ => trivial, fun _ => rfl, trivial, trivial⟩

/-- The same, with tokens for any session. -/
def SomeAside (settings : AuthnSettings) (op : AuthnOp) : Prop := ∃ sid, Aside settings sid op

theorem someAside {β : Type} {p : AuthnProc β} (h : p.Asks (Aside settings sid)) :
    p.Asks (SomeAside settings) :=
  h.mono fun _ hop => ⟨sid, hop⟩

/-! ## The parts of the handlers -/

theorem asks_pinnedOrLatest (doc : SigningKeyStateDoc) :
    (SigningKeyService.pinnedOrLatest doc).Asks (KeyOp.signsFor sid) := by
  unfold SigningKeyService.pinnedOrLatest
  cases doc.pinnedVersion with
  | some version => trivial
  | none => exact ⟨trivial, fun _ => trivial⟩

theorem asks_resolveActive (keyName : String) :
    (SigningKeyService.resolveActive keyName).Asks (KeyOp.signsFor sid) := by
  refine ⟨trivial, fun doc => ?_⟩
  show Proc.Asks _ (SigningKeyService.pinnedOrLatest doc >>= _)
  exact Proc.asks_bind (fun _ => by trivial) (asks_pinnedOrLatest doc)

/-- What an issuer asks for, over the wider interface: reads, and a signature for one session. -/
theorem asks_issue_of {Q : AuthnOp → Prop} (h : ∀ op : KeyOp, op.signsFor sid → Q (.key op))
    {claims : AccessTokenClaims} {jti : String} (hsid : claims.sid = sid) :
    (AccessTokens.issue settings claims jti).Asks Q := by
  have hissue : (JwtAccessTokenIssuer.issue settings.keys.keyName settings.keys.tokens claims
      jti).Asks (KeyOp.signsFor sid) := by
    refine ⟨trivial, fun nowMs => ?_⟩
    show Proc.Asks _ (SigningKeyService.resolveActive _ >>= _)
    refine Proc.asks_bind (fun active => ?_) (asks_resolveActive _)
    refine ⟨congrArg some hsid, fun signature => ?_⟩
    cases (signature : Option Signature) with
    | none => trivial
    | some signature =>
      show Proc.Asks _ (if _ then _ else _)
      split_ifs <;> trivial
  exact Proc.asks_via h hissue

/-- A token is signed for the session of its claims. -/
theorem asks_issue {claims : AccessTokenClaims} {jti : String} (hsid : claims.sid = sid) :
    (AccessTokens.issue settings claims jti).Asks (Aside settings sid) :=
  asks_issue_of (fun _ hop => ⟨fun _ => trivial, fun _ => rfl, trivial, hop⟩) hsid

theorem asks_ofIdentity {α : Type} (p : IdentityProc α) :
    (AuthnProc.ofIdentity p).Asks (Aside settings sid) :=
  Proc.asks_via (fun _ _ => .plain rfl) (Proc.asks_trivial p)

theorem asks_isLockedKey (key : Option String) (policy : LockoutPolicy) :
    (Lockout.isLockedKey key policy).Asks (Aside settings sid) := by
  cases key with
  | none => trivial
  | some key => exact ⟨.plain rfl, fun _ => trivial⟩

theorem asks_whenKey (key : Option String) {act : String → AuthnProc Unit}
    (h : ∀ key, (act key).Asks (Aside settings sid)) :
    (Lockout.whenKey key act).Asks (Aside settings sid) := by
  cases key with
  | none => trivial
  | some key => exact h key

theorem asks_registerFailure (policy : LockoutPolicy) (key : String) :
    (Lockout.registerFailure key policy).Asks (Aside settings sid) :=
  ⟨.plain rfl, fun _ => trivial⟩

theorem asks_reset (key : String) : (Lockout.reset key).Asks (Aside settings sid) :=
  ⟨.plain rfl, fun _ => trivial⟩

theorem asks_verifyCredentials (email password : String) :
    (IdentityCredentials.verify settings email password).Asks (Aside settings sid) := by
  unfold IdentityCredentials.verify
  cases Email.create settings email with
  | none => trivial
  | some email =>
    refine ⟨.plain rfl, fun user => ?_⟩
    cases (user : Option User) with
    | none => trivial
    | some user =>
      show Proc.Asks _ (if _ then _ else _)
      split_ifs
      · trivial
      · exact Proc.asks_bind (fun _ => by trivial) (asks_ofIdentity _)

theorem asks_login (command : LoginCommand) (draws : LoginDraws) :
    (LoginHandler.execute settings command draws).Asks (Aside settings draws.sessionId.value) := by
  unfold LoginHandler.execute
  refine Proc.asks_bind (fun lockedByAccount => ?_) (asks_isLockedKey _ _)
  refine Proc.asks_bind (fun lockedByIp => ?_) (asks_isLockedKey _ _)
  by_cases hlocked : (lockedByAccount || lockedByIp) = true
  · rw [if_pos hlocked]
    trivial
  rw [if_neg hlocked]
  refine Proc.asks_bind (fun check => ?_) (asks_verifyCredentials _ _)
  cases check with
  | none =>
    refine Proc.asks_bind (fun _ => ?_) (asks_whenKey _ (asks_registerFailure _))
    exact Proc.asks_bind (fun _ => by trivial) (asks_whenKey _ (asks_registerFailure _))
  | some check =>
    refine Proc.asks_bind (fun _ => ?_) (asks_whenKey _ asks_reset)
    refine Proc.asks_bind (fun _ => ?_) (asks_whenKey _ asks_reset)
    refine ⟨.plain rfl, fun now => ⟨.plain rfl, fun membership => ?_⟩⟩
    show Proc.Asks _ (AccessTokens.issue settings _ _ >>= _)
    refine Proc.asks_bind (fun access => ?_) (asks_issue rfl)
    refine ⟨⟨fun _ => ⟨rfl, rfl⟩, fun _ => rfl, trivial, trivial⟩, fun created => ?_⟩
    cases (created : Bool) <;> trivial

theorem asks_elevate (command : StepUpCommand) (jti : String) (session : Session) :
    (StepUpHandler.elevate settings command jti session).Asks
      (Aside settings session.id.value) := by
  refine ⟨.plain rfl, fun now => ⟨.plain rfl, fun _ => ?_⟩⟩
  show Proc.Asks _ (AccessTokens.issue settings _ _ >>= _)
  refine Proc.asks_bind (fun token => ?_) (asks_issue rfl)
  exact Proc.asks_bind (fun _ => by trivial) (asks_ofIdentity _)

theorem asks_stepUp (command : StepUpCommand) (jti : String) :
    (StepUpHandler.execute settings command jti).Asks (SomeAside settings) := by
  have hplain : ∀ {op : AuthnOp}, Aside settings "" op → SomeAside settings op :=
    fun hop => ⟨"", hop⟩
  have hidentity : ∀ {α : Type} (p : IdentityProc α),
      (AuthnProc.ofIdentity p).Asks (Aside settings "") := fun p => asks_ofIdentity p
  refine ⟨hplain (.plain rfl), fun session => ?_⟩
  cases (session : Option Session) with
  | none => trivial
  | some session =>
    show Proc.Asks _ (if _ then _ else _)
    split_ifs
    · trivial
    refine ⟨hplain (.plain rfl), fun locked => ?_⟩
    cases (locked : Bool) with
    | true => trivial
    | false =>
    show Proc.Asks _ (AuthnProc.ofIdentity _ >>= _)
    refine Proc.asks_bind (fun verified => ?_) (someAside (hidentity _))
    split_ifs
    · refine ⟨hplain (.plain rfl), fun _ => ?_⟩
      show Proc.Asks _ (AuthnProc.ofIdentity _ >>= _)
      exact Proc.asks_bind (fun _ => by trivial) (someAside (hidentity _))
    · exact ⟨hplain (.plain rfl), fun _ => someAside (asks_elevate command jti session)⟩

/-! ## Termination and the guard -/

theorem asks_terminate (sid : String) (reason sessionId : String) :
    (SessionTerminator.terminate settings reason sessionId).Asks (Aside settings sid) :=
  ⟨.plain rfl, fun _ => ⟨.plain rfl, fun _ => ⟨.plain rfl, fun _ =>
    ⟨⟨fun _ => trivial, fun _ => rfl, rfl, trivial⟩, fun _ => trivial⟩⟩⟩⟩

theorem asks_blocklistAll (sids : List SessionId) :
    (SessionTerminator.blocklistAll settings sids).Asks (Aside settings sid) := by
  induction sids with
  | nil => trivial
  | cons _ sids ih => exact ⟨⟨fun _ => trivial, fun _ => rfl, rfl, trivial⟩, fun _ => ih⟩

theorem asks_terminateAll (sid : String) (userId : UserId) :
    (SessionTerminator.terminateAllForUser settings userId).Asks (Aside settings sid) := by
  refine ⟨.plain rfl, fun _ => ⟨.plain rfl, fun _ => ⟨.plain rfl, fun sids => ?_⟩⟩⟩
  refine ⟨.plain rfl, fun _ => ?_⟩
  show Proc.Asks _ (SessionTerminator.blocklistAll settings sids >>= _)
  exact Proc.asks_bind (fun _ => by trivial) (asks_blocklistAll _)

theorem asks_revokeForReuse (sid : String) (id : TokenFamilyId) (at_ : Int) (event : ReuseEvent) :
    (RefreshHandler.revokeForReuse id at_ event).Asks (Aside settings sid) :=
  ⟨.plain rfl, fun _ => ⟨.plain rfl, fun _ => trivial⟩⟩

theorem asks_canActivate (sid : String) (token : Jwt) :
    (AccessTokenGuard.canActivate token).Asks (Aside settings sid) := by
  refine ⟨.plain rfl, fun result => ?_⟩
  cases (result : Except VerifyError VerifiedClaims) with
  | error _ => trivial
  | ok claims =>
    dsimp only [Proc.bind]
    split
    · refine ⟨.plain rfl, fun revoked => ?_⟩
      cases (revoked : Bool) <;> trivial
    · trivial

/-! ## Refresh -/

/-- What a refresh asks for once it has read the token, the family and the session. -/
def ExchangeOp (settings : AuthnSettings) (sid : String) : AuthnOp → Prop
  | .key op => op.signsFor sid
  | .rotate _ _ _ | .touch _ _ | .gracePut _ _ _ | .graceGet _ | .findActiveToken _
  | .tokensOfFamily _ | .revokeForReuse _ _ _ _ | .revokeSession _ _ => True
  | .revokeSubject _ ttlSeconds => ttlSeconds = settings.keys.accessTokenTtlSeconds
  | _ => False

theorem asks_replay {token : RefreshToken} {hash : String} (attempts : Nat) :
    (RefreshHandler.replayFromGrace token hash attempts).Asks (ExchangeOp settings sid) := by
  induction attempts with
  | zero => trivial
  | succ attempts ih =>
    refine ⟨trivial, fun cached => ?_⟩
    cases (cached : Option GracePair) with
    | none => exact ih
    | some cached =>
      refine ⟨trivial, fun active => ?_⟩
      cases (active : Option RefreshToken) with
      | none => trivial
      | some active =>
        show Proc.Asks _ (if _ then _ else _)
        split_ifs <;> trivial

theorem asks_tryRotate {draws : RefreshDraws} {token : RefreshToken} {family : TokenFamily}
    {session : Session} {hash : String} {now : Int} :
    (RefreshHandler.tryRotate settings draws token family session hash now).Asks
      (ExchangeOp settings session.id.value) := by
  refine Proc.asks_bind (fun access => ?_) (asks_issue_of (fun _ hop => hop) rfl)
  refine ⟨trivial, fun won => ?_⟩
  cases (won : Option Bool) with
  | none => trivial
  | some won =>
    cases won with
    | false => exact asks_replay _
    | true => exact ⟨trivial, fun _ => ⟨trivial, fun _ => trivial⟩⟩

theorem asks_exchange {draws : RefreshDraws} {token : RefreshToken} {family : TokenFamily}
    {session : Session} {hash : String} {now : Int} :
    (RefreshHandler.exchange settings draws token family session hash now).Asks
      (ExchangeOp settings session.id.value) := by
  rw [RefreshHandler.exchange_eq]
  refine Proc.asks_bind (fun result => ?_) ?_
  · cases result with
    | some result => trivial
    | none =>
      exact ⟨trivial, fun _ => ⟨trivial, fun _ => ⟨trivial, fun _ => ⟨rfl, fun _ => trivial⟩⟩⟩⟩
  · split_ifs
    · exact asks_tryRotate
    · exact asks_replay 1

/-- A refresh asks for no token but the one it presents. -/
theorem asks_refresh {draws : RefreshDraws} {refreshToken : String} {Q : AuthnOp → Prop}
    (hnow : Q .now) (htoken : Q (.findToken (settings.sha256 refreshToken)))
    (hfamily : ∀ id, Q (.findFamily id)) (hsession : ∀ id, Q (.findSession id))
    (hexchange : ∀ sid op, ExchangeOp settings sid op → Q op) :
    (RefreshHandler.execute settings draws refreshToken).Asks Q := by
  refine ⟨hnow, fun (now : Int) => ⟨htoken, fun token => ?_⟩⟩
  cases (token : Option RefreshToken) with
  | none => trivial
  | some token =>
  show Proc.Asks _ (if _ then _ else _)
  split_ifs
  · trivial
  refine ⟨hfamily _, fun family => ?_⟩
  cases (family : Option TokenFamily) with
  | none => trivial
  | some family =>
  show Proc.Asks _ (if _ then _ else _)
  split_ifs
  · trivial
  refine ⟨hsession _, fun session => ?_⟩
  cases (session : Option Session) with
  | none => trivial
  | some session =>
  show Proc.Asks _ (if _ then _ else _)
  split_ifs
  · trivial
  exact asks_exchange.mono fun op hop => hexchange _ op hop

end AccessCore
