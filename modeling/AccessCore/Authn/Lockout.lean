/-
  The lockout counters, and the logins from one address one after the other.

  A login reads two counters, of its account and of its address, and counts a failure on both.  A
  success deletes both, and what the address has guessed wrong before is forgotten with them
  (`ForgetsFailures`).  Between two such logins the failures of an address in one window are at
  most its threshold (`ip_lockout_bounds_failures`).
-/
import AccessCore.Authn.RefreshSafety

namespace AccessCore

/-! ## Counters -/

namespace AuthnStore

/-- The failures counted under a key. -/
def failures (store : AuthnStore) (key : String) : Nat :=
  ((store.lockoutCount key).map (·.count)).getD 0

theorem isLocked_iff {store : AuthnStore} (hup : store.redisUp = true) {key : String}
    {policy : LockoutPolicy} :
    store.isLocked key policy = true ↔ policy.threshold ≤ store.failures key := by
  simp [isLocked, hup, failures]

theorem failures_lt_of_unlocked {store : AuthnStore} (hup : store.redisUp = true) {key : String}
    {policy : LockoutPolicy} (h : store.isLocked key policy = false) :
    store.failures key < policy.threshold := by
  by_contra hle
  rw [(isLocked_iff hup).mpr (Nat.le_of_not_lt hle)] at h
  cases h

theorem failures_congr {store store' : AuthnStore} {key : String}
    (hrow : store'.lockouts.get key = store.lockouts.get key) (hnow : store'.nowMs = store.nowMs) :
    store'.failures key = store.failures key := by
  unfold failures lockoutCount
  rw [hrow, hnow]

theorem get_registerFailure {store : AuthnStore} (hup : store.redisUp = true) {key : String}
    {policy : LockoutPolicy} (key' : String) :
    (store.registerFailure key policy).lockouts.get key' = if key' = key then
      some (match store.lockoutCount key with
        | some entry => ⟨key, entry.count + 1, entry.expiresMs⟩
        | none => ⟨key, 1, store.nowMs + policy.windowSeconds * 1000⟩)
    else store.lockouts.get key' := by
  unfold registerFailure
  rw [if_pos hup]
  refine (Table.get_overwrite key').trans ?_
  cases store.lockoutCount key <;> rfl

theorem get_resetLockout {store : AuthnStore} (hup : store.redisUp = true) {key : String}
    (key' : String) : (store.resetLockout key).lockouts.get key' =
      if key' = key then none else store.lockouts.get key' := by
  unfold resetLockout
  rw [if_pos hup]
  refine (Table.get_delete key').trans ?_
  cases hrow : store.lockouts.get key' with
  | none => rw [ite_self]; rfl
  | some row =>
    obtain ⟨-, rfl⟩ := Table.mem_of_get hrow
    by_cases hkey : row.key = key
    · simp [Option.filter, hkey]
    · simp [Option.filter, hkey]

/-- In a window that has any length a failure is counted. -/
theorem failures_registerFailure {store : AuthnStore} (hup : store.redisUp = true) {key : String}
    {policy : LockoutPolicy} (hwindow : 0 < policy.windowSeconds) :
    (store.registerFailure key policy).failures key = store.failures key + 1 := by
  have hnow : (store.registerFailure key policy).nowMs = store.nowMs := by
    unfold registerFailure
    rw [if_pos hup]
  unfold failures
  conv_lhs => rw [lockoutCount, get_registerFailure hup, if_pos rfl, hnow]
  cases hcount : store.lockoutCount key with
  | some entry =>
    have hlive : store.nowMs < entry.expiresMs := by
      have h := (Option.filter_eq_some_iff.mp hcount).2
      simpa using h
    simp [Option.filter, hlive]
  | none =>
    have hlive : (0 : Int) < policy.windowSeconds * 1000 := by omega
    simp [Option.filter, hlive]

end AuthnStore

/-- The operations that leave the counters alone. -/
def AuthnOp.leavesLockouts : AuthnOp → Prop
  | .isLocked _ _ => False
  | .registerFailure _ _ => False
  | .resetLockout _ => False
  | _ => True

section Leaves

variable {settings : AuthnSettings} {store : AuthnStore} {op : AuthnOp}

theorem not_registerFailure_of_leaves (h : op.leavesLockouts) (key : String)
    (policy : LockoutPolicy) : op ≠ .registerFailure key policy := by
  rintro rfl
  exact h

theorem not_resetLockout_of_leaves (h : op.leavesLockouts) (key : String) :
    op ≠ .resetLockout key := by
  rintro rfl
  exact h

theorem leaves_ofIdentity {α : Type} (p : IdentityProc α) :
    (AuthnProc.ofIdentity p).Asks AuthnOp.leavesLockouts :=
  Proc.asks_via (fun _ _ => trivial) (Proc.asks_trivial p)

theorem leaves_issue (claims : AccessTokenClaims) (jti : String) :
    (AccessTokens.issue settings claims jti).Asks AuthnOp.leavesLockouts :=
  Proc.asks_via (fun _ _ => trivial) (Proc.asks_trivial _)

theorem leaves_verify (email password : String) :
    (IdentityCredentials.verify settings email password).Asks AuthnOp.leavesLockouts := by
  unfold IdentityCredentials.verify
  cases Email.create settings email with
  | none => trivial
  | some email =>
    refine ⟨trivial, fun user => ?_⟩
    cases (user : Option User) with
    | none => trivial
    | some user =>
      show Proc.Asks _ (if _ then _ else _)
      split_ifs
      · trivial
      · exact Proc.asks_bind (fun _ => by trivial) (leaves_ofIdentity _)

/-- A login that is opened does not fail for its credentials. -/
theorem returns_open (command : LoginCommand) (draws : LoginDraws) (check : CredentialCheck) :
    (LoginHandler.open_ settings command draws check).Returns
      fun result => result ≠ .error .invalidCredentials := by
  refine fun now membership => ?_
  show Proc.Returns _ (AccessTokens.issue settings _ _ >>= _)
  refine Proc.returns_bind (fun access created => ?_) _
  cases (created : Bool) with
  | true => exact nofun
  | false => trivial

theorem leaves_open (command : LoginCommand) (draws : LoginDraws) (check : CredentialCheck) :
    (LoginHandler.open_ settings command draws check).Asks AuthnOp.leavesLockouts := by
  refine ⟨trivial, fun now => ⟨trivial, fun membership => ?_⟩⟩
  show Proc.Asks _ (AccessTokens.issue settings _ _ >>= _)
  refine Proc.asks_bind (fun access => ?_) (leaves_issue _ _)
  refine ⟨trivial, fun created => ?_⟩
  cases (created : Bool) <;> trivial

end Leaves

/-! ## Logins from one address -/

/-- A login, with the time at which it is made. -/
structure LoginAttempt where
  atMs : Int
  command : LoginCommand
  draws : LoginDraws

namespace LoginAttempt

def run (settings : AuthnSettings) (attempt : LoginAttempt) (store : AuthnStore) :
    AuthnStore × Except String (Except LoginError LoginResult) :=
  (LoginHandler.execute settings attempt.command attempt.draws).eval
    (AuthnStore.exec settings) { store with nowMs := attempt.atMs }

end LoginAttempt

/-- One login after the other: the store they leave and their results. -/
def loginRun (settings : AuthnSettings) : AuthnStore → List LoginAttempt →
    AuthnStore × List (Except String (Except LoginError LoginResult))
  | store, [] => (store, [])
  | store, attempt :: attempts =>
    let (store, result) := attempt.run settings store
    let (store, results) := loginRun settings store attempts
    (store, result :: results)

/-- A login whose verification has run and failed. -/
def verificationFailed : Except String (Except LoginError LoginResult) → Bool
  | .ok (.error .invalidCredentials) => true
  | _ => false

/-- The failed verifications of a run of logins. -/
def failedLogins (settings : AuthnSettings) (store : AuthnStore) (attempts : List LoginAttempt) :
    Nat :=
  (loginRun settings store attempts).2.countP verificationFailed

/-- The key of the account that a login names; the public account has none. -/
def AuthnSettings.accountKey (settings : AuthnSettings) (email : String) : Option String :=
  if some (settings.normalize email) = settings.publicCredentialEmail then none
  else some ("acct:" ++ settings.normalize email)

/-- Whether the password is right for an account that may log in. -/
def AuthnSettings.credentialsMatch (settings : AuthnSettings) (store : AuthnStore)
    (email password : String) : Bool :=
  match Email.create settings email with
  | none => false
  | some email =>
    match store.identity.users.find? (·.email = email) with
    | none => false
    | some user => settings.passwordMatches password user.passwordHash && user.status = .active

/-- A login that succeeds while failures of its address are counted: its password is right, and
    neither counter is locked. -/
def ForgetsFailures (settings : AuthnSettings) (ip : String) (attempt : LoginAttempt)
    (store : AuthnStore) : Prop :=
  settings.credentialsMatch store attempt.command.email attempt.command.password = true ∧
    store.isLocked ("ip:" ++ ip) settings.ipLockout = false ∧
    (∀ key ∈ settings.accountKey attempt.command.email,
      store.isLocked key settings.accountLockout = false) ∧
    0 < store.failures ("ip:" ++ ip)

instance (settings : AuthnSettings) (ip : String) (attempt : LoginAttempt) (store : AuthnStore) :
    Decidable (ForgetsFailures settings ip attempt store) := by
  unfold ForgetsFailures
  infer_instance

/-- How often a run of logins forgets failures of the address. -/
def timesForgotten (settings : AuthnSettings) (ip : String) : AuthnStore → List LoginAttempt → Nat
  | _, [] => 0
  | store, attempt :: attempts =>
    timesForgotten settings ip (attempt.run settings store).1 attempts +
      if ForgetsFailures settings ip attempt { store with nowMs := attempt.atMs } then 1 else 0

/-- Redis is up, and between `fromMs` and `untilMs` no counter of the key ends: what is counted
    before stays counted, and what is over is over. -/
structure InWindow (key : String) (fromMs untilMs : Int) (store : AuthnStore) : Prop where
  up : store.redisUp = true
  rows : ∀ row ∈ store.lockouts.get key, untilMs ≤ row.expiresMs ∨ row.expiresMs ≤ fromMs

/-! ### One login -/

section Login

variable {settings : AuthnSettings} {store store' : AuthnStore} {key ip : String}
  {fromMs untilMs : Int}

/-- Inside its window a counter does not depend on the time. -/
theorem InWindow.failures_eq (h : InWindow key fromMs untilMs store) {t t' : Int}
    (ht : fromMs ≤ t ∧ t < untilMs) (ht' : fromMs ≤ t' ∧ t' < untilMs) :
    AuthnStore.failures { store with nowMs := t } key =
      AuthnStore.failures { store with nowMs := t' } key := by
  unfold AuthnStore.failures AuthnStore.lockoutCount
  show ((Option.filter _ (store.lockouts.get key)).map _).getD 0 =
    ((Option.filter _ (store.lockouts.get key)).map _).getD 0
  cases hrow : store.lockouts.get key with
  | none => rfl
  | some row =>
    have hsame : decide (t < row.expiresMs) = decide (t' < row.expiresMs) := by
      rcases h.rows row hrow with hlive | hover
      · rw [decide_eq_true (by omega : t < row.expiresMs), decide_eq_true (by omega)]
      · rw [decide_eq_false (by omega : ¬ t < row.expiresMs), decide_eq_false (by omega)]
    simp only [Option.filter_some, hsame]

theorem InWindow.registerFailure (h : InWindow key fromMs untilMs store) {policy : LockoutPolicy}
    (hnow : fromMs ≤ store.nowMs ∧ store.nowMs < untilMs)
    (hlength : untilMs ≤ fromMs + policy.windowSeconds * 1000) :
    InWindow key fromMs untilMs (store.registerFailure key policy) := by
  refine ⟨?_, fun row hrow => Or.inl ?_⟩
  · unfold AuthnStore.registerFailure
    rw [if_pos h.up]
    exact h.up
  · rw [AuthnStore.get_registerFailure h.up, if_pos rfl] at hrow
    obtain rfl := Option.some.inj hrow
    cases hcount : store.lockoutCount key with
    | none =>
      show untilMs ≤ store.nowMs + policy.windowSeconds * 1000
      omega
    | some entry =>
      -- the counter goes on, and it has not ended
      obtain ⟨hentry, hlive⟩ := Option.filter_eq_some_iff.mp hcount
      have hlive : store.nowMs < entry.expiresMs := of_decide_eq_true hlive
      show untilMs ≤ entry.expiresMs
      rcases h.rows entry hentry with hlater | hover
      · exact hlater
      · omega

theorem InWindow.resetLockout (h : InWindow key fromMs untilMs store) :
    InWindow key fromMs untilMs (store.resetLockout key) ∧
      (store.resetLockout key).failures key = 0 ∧ (store.resetLockout key).nowMs = store.nowMs := by
  have hnone : (store.resetLockout key).lockouts.get key = none := by
    rw [AuthnStore.get_resetLockout h.up, if_pos rfl]
  refine ⟨⟨?_, fun row hrow => ?_⟩, ?_, ?_⟩
  · unfold AuthnStore.resetLockout
    rw [if_pos h.up]
    exact h.up
  · rw [hnone] at hrow
    cases hrow
  · unfold AuthnStore.failures AuthnStore.lockoutCount
    rw [hnone]
    rfl
  · unfold AuthnStore.resetLockout
    rw [if_pos h.up]

/-- The counter of a key, the time and Redis are as they were. -/
structure SameCounter (key : String) (store store' : AuthnStore) : Prop where
  row : store'.lockouts.get key = store.lockouts.get key
  nowMs : store'.nowMs = store.nowMs
  redisUp : store'.redisUp = store.redisUp

namespace SameCounter

theorem refl (key : String) (store : AuthnStore) : SameCounter key store store := ⟨rfl, rfl, rfl⟩

theorem trans {store'' : AuthnStore} (h : SameCounter key store store')
    (h' : SameCounter key store' store'') : SameCounter key store store'' :=
  ⟨h'.row.trans h.row, h'.nowMs.trans h.nowMs, h'.redisUp.trans h.redisUp⟩

variable (settings key) in
theorem exec {op : AuthnOp} (h : op.leavesLockouts) :
    SameCounter key store (store.exec settings op).1 := by
  have hframe := AuthnStore.exec_frame settings op store
  have hlockouts := hframe.lockouts (not_registerFailure_of_leaves h) (not_resetLockout_of_leaves h)
  exact ⟨congrArg (·.get key) hlockouts, hframe.nowMs, hframe.redisUp⟩

theorem inWindow (h : SameCounter key store store') (hwindow : InWindow key fromMs untilMs store) :
    InWindow key fromMs untilMs store' :=
  ⟨h.redisUp.trans hwindow.up, fun row hrow => hwindow.rows row (h.row ▸ hrow)⟩

theorem failures (h : SameCounter key store store') : store'.failures key = store.failures key :=
  AuthnStore.failures_congr h.row h.nowMs

/-- A failure of another key. -/
theorem registerFailure {other : String} (hne : key ≠ other) (hup : store.redisUp = true)
    (policy : LockoutPolicy) : SameCounter key store (store.registerFailure other policy) := by
  refine ⟨by rw [AuthnStore.get_registerFailure hup, if_neg hne], ?_, ?_⟩
  · unfold AuthnStore.registerFailure
    rw [if_pos hup]
  · unfold AuthnStore.registerFailure
    rw [if_pos hup]

theorem resetLockout {other : String} (hne : key ≠ other) (hup : store.redisUp = true) :
    SameCounter key store (store.resetLockout other) := by
  refine ⟨by rw [AuthnStore.get_resetLockout hup, if_neg hne], ?_, ?_⟩
  · unfold AuthnStore.resetLockout
    rw [if_pos hup]
  · unfold AuthnStore.resetLockout
    rw [if_pos hup]

end SameCounter

variable (key) in
/-- What leaves the counters alone leaves them so to the end. -/
theorem ends_leaves {α : Type} {p : AuthnProc α} (hp : p.Asks AuthnOp.leavesLockouts) :
    Proc.Ends (AuthnStore.exec settings)
      (fun _ store' => SameCounter key store store') p store := by
  have hstep : ∀ (op : AuthnOp) (s : AuthnStore), op.leavesLockouts → SameCounter key store s →
      SameCounter key store (s.exec settings op).1 :=
    fun _ _ hop h => h.trans (.exec settings key hop)
  exact Proc.ends_of_asks (SameCounter key store) hstep hp (.refl key store)

variable (key) in
/-- The verification returns a check when the credentials match. -/
theorem ends_verifyCredentials (email password : String) :
    Proc.Ends (AuthnStore.exec settings) (fun result store' => SameCounter key store store' ∧
      ∃ check, result = .ok check ∧
        check.isSome = settings.credentialsMatch store email password)
      (IdentityCredentials.verify settings email password) store := by
  refine ⟨ends_leaves key (leaves_verify email password), ?_⟩
  unfold IdentityCredentials.verify AuthnSettings.credentialsMatch
  cases Email.create settings email with
  | none => exact ⟨none, rfl, rfl⟩
  | some email =>
    show ∃ check : Option CredentialCheck,
      (Proc.eval _ (match store.identity.users.find? (·.email = email) with
        | none => _ | some user => _) store).2 = .ok check ∧
      check.isSome = (match store.identity.users.find? (·.email = email) with
        | none => false
        | some user => settings.passwordMatches password user.passwordHash && user.status = .active)
    cases store.identity.users.find? (·.email = email) with
    | none => exact ⟨none, rfl, rfl⟩
    | some user =>
      show ∃ check : Option CredentialCheck,
        (Proc.eval _ (if !settings.passwordMatches password user.passwordHash ||
          user.status ≠ .active then _ else _) store).2 = .ok check ∧
        check.isSome =
          (settings.passwordMatches password user.passwordHash && decide (user.status = .active))
      cases settings.passwordMatches password user.passwordHash with
      | false => exact ⟨none, rfl, rfl⟩
      | true =>
        by_cases hactive : user.status = .active
        · simp only [hactive, Bool.not_true, Bool.false_or, ne_eq, not_true_eq_false, decide_false,
            Bool.false_eq_true, if_false, decide_true, Bool.and_self]
          exact ⟨_, rfl, rfl⟩
        · simp only [hactive, Bool.not_true, Bool.false_or, ne_eq, not_false_eq_true, decide_true,
            if_true, decide_false, Bool.and_false]
          exact ⟨none, rfl, rfl⟩

theorem ends_isLockedKey {Post : Except String Bool → AuthnStore → Prop} (key : Option String)
    (policy : LockoutPolicy) :
    Proc.Ends (AuthnStore.exec settings) Post (Lockout.isLockedKey key policy) store ↔
      Post (.ok (key.any (store.isLocked · policy))) store := by
  cases key <;> exact Iff.rfl

/-- A failure or a reset of the key, if there is one. -/
def AuthnStore.withKey (store : AuthnStore) (key : Option String)
    (change : AuthnStore → String → AuthnStore) : AuthnStore :=
  match key with
  | some key => change store key
  | none => store

theorem ends_registerFailure {Post : Except String Unit → AuthnStore → Prop} (key : Option String)
    (policy : LockoutPolicy) :
    Proc.Ends (AuthnStore.exec settings) Post
      (Lockout.whenKey key (Lockout.registerFailure · policy)) store ↔
        Post (.ok ()) (store.withKey key fun store key => store.registerFailure key policy) := by
  cases key <;> exact Iff.rfl

theorem ends_reset {Post : Except String Unit → AuthnStore → Prop} (key : Option String) :
    Proc.Ends (AuthnStore.exec settings) Post (Lockout.whenKey key Lockout.reset) store ↔
      Post (.ok ()) (store.withKey key AuthnStore.resetLockout) := by
  cases key <;> exact Iff.rfl

theorem accountKey_ne (email ip : String) :
    ∀ key ∈ settings.accountKey email, "ip:" ++ ip ≠ key := by
  intro key hkey heq
  unfold AuthnSettings.accountKey at hkey
  split_ifs at hkey
  · cases hkey
  · obtain rfl := Option.some.inj hkey
    have hlists := congrArg String.toList heq
    simp at hlists

/-- What is counted for an account is not counted for an address. -/
theorem sameCounter_account (email ip : String)
    {change : AuthnStore → String → AuthnStore}
    (hchange : ∀ key, "ip:" ++ ip ≠ key → SameCounter ("ip:" ++ ip) store (change store key)) :
    SameCounter ("ip:" ++ ip) store (store.withKey (settings.accountKey email) change) := by
  cases hkey : settings.accountKey email with
  | none => exact .refl _ store
  | some key => exact hchange key (accountKey_ne email ip key hkey)

/-- What one login does to the counter of its address: a failure is counted, and only a login that
    finds no counter locked and has the right password takes something away. -/
structure Counted (settings : AuthnSettings) (ip : String) (fromMs untilMs : Int)
    (command : LoginCommand) (store : AuthnStore)
    (result : Except String (Except LoginError LoginResult)) (store' : AuthnStore) : Prop where
  window : InWindow ("ip:" ++ ip) fromMs untilMs store'
  nowMs : store'.nowMs = store.nowMs
  failed : verificationFailed result = true →
    store.failures ("ip:" ++ ip) < settings.ipLockout.threshold ∧
      store'.failures ("ip:" ++ ip) = store.failures ("ip:" ++ ip) + 1
  others : verificationFailed result = false →
    store'.failures ("ip:" ++ ip) = store.failures ("ip:" ++ ip) ∨
      store'.failures ("ip:" ++ ip) = 0 ∧
        settings.credentialsMatch store command.email command.password = true ∧
        store.isLocked ("ip:" ++ ip) settings.ipLockout = false ∧
        ∀ key ∈ settings.accountKey command.email,
          store.isLocked key settings.accountLockout = false

theorem ends_login (command : LoginCommand) (draws : LoginDraws) (hip : command.ip = some ip)
    (hne : ip ≠ "") (hwindow : InWindow ("ip:" ++ ip) fromMs untilMs store)
    (hnow : fromMs ≤ store.nowMs ∧ store.nowMs < untilMs)
    (hlength : untilMs ≤ fromMs + settings.ipLockout.windowSeconds * 1000) :
    Proc.Ends (AuthnStore.exec settings) (Counted settings ip fromMs untilMs command store)
      (LoginHandler.execute settings command draws) store := by
  have hipKey : (command.ip.filter (· ≠ "")).map ("ip:" ++ ·) = some ("ip:" ++ ip) := by
    rw [hip]
    simp [hne]
  have haccountKey : (if some (settings.normalize command.email) = settings.publicCredentialEmail
      then none else some ("acct:" ++ settings.normalize command.email)) =
      settings.accountKey command.email := rfl
  unfold LoginHandler.execute
  simp only [hipKey, haccountKey]
  rw [Proc.ends_bind, ends_isLockedKey]
  show Proc.Ends _ _ (Lockout.isLockedKey _ _ >>= _) _
  rw [Proc.ends_bind, ends_isLockedKey]
  show Proc.Ends _ _ (if ((settings.accountKey command.email).any
    (store.isLocked · settings.accountLockout) ||
    (some ("ip:" ++ ip)).any (store.isLocked · settings.ipLockout)) = true then _ else _) _
  by_cases hlocked : ((settings.accountKey command.email).any
      (store.isLocked · settings.accountLockout) ||
      (some ("ip:" ++ ip)).any (store.isLocked · settings.ipLockout)) = true
  · rw [if_pos hlocked]
    exact ⟨hwindow, rfl, nofun, fun _ => Or.inl rfl⟩
  rw [if_neg hlocked]
  obtain ⟨haccount, hunlocked⟩ := Bool.or_eq_false_iff.mp (Bool.eq_false_iff.mpr hlocked)
  replace haccount : ∀ key ∈ settings.accountKey command.email,
      store.isLocked key settings.accountLockout = false := by
    intro key hkey
    rw [Option.mem_def.mp hkey] at haccount
    exact haccount
  replace hunlocked : store.isLocked ("ip:" ++ ip) settings.ipLockout = false := hunlocked
  rw [Proc.ends_bind]
  refine (ends_verifyCredentials ("ip:" ++ ip) command.email command.password).mono ?_
  rintro _ store₁ ⟨hsame₁, check, rfl, hmatches⟩
  have hwindow₁ := hsame₁.inWindow hwindow
  cases check with
  | none =>
    -- counted for the account, and then for the address
    show Proc.Ends _ _ (Lockout.whenKey _ _ >>= _) _
    rw [Proc.ends_bind, ends_registerFailure]
    show Proc.Ends _ _ (Lockout.whenKey _ _ >>= _) _
    rw [Proc.ends_bind, ends_registerFailure]
    have hsame₂ : SameCounter ("ip:" ++ ip) store₁ (store₁.withKey
        (settings.accountKey command.email) fun store key =>
          store.registerFailure key settings.accountLockout) :=
      sameCounter_account _ _ fun key hne => .registerFailure hne hwindow₁.up _
    have hsame := hsame₁.trans hsame₂
    generalize store₁.withKey (settings.accountKey command.email)
      (fun store key => store.registerFailure key settings.accountLockout) = store₂ at hsame
    have hwindow₂ := hsame.inWindow hwindow
    have hnow₂ : fromMs ≤ store₂.nowMs ∧ store₂.nowMs < untilMs := hsame.nowMs ▸ hnow
    show Counted settings ip fromMs untilMs command store (.ok (.error .invalidCredentials))
      (store₂.registerFailure ("ip:" ++ ip) settings.ipLockout)
    refine ⟨hwindow₂.registerFailure hnow₂ hlength, ?_, fun _ => ⟨?_, ?_⟩, nofun⟩
    · unfold AuthnStore.registerFailure
      rw [if_pos hwindow₂.up]
      exact hsame.nowMs
    · exact AuthnStore.failures_lt_of_unlocked hwindow.up hunlocked
    · rw [AuthnStore.failures_registerFailure hwindow₂.up (by omega), hsame.failures]
  | some check =>
    show Proc.Ends _ _ (Lockout.whenKey _ _ >>= _) _
    rw [Proc.ends_bind, ends_reset]
    show Proc.Ends _ _ (Lockout.whenKey _ _ >>= _) _
    rw [Proc.ends_bind, ends_reset]
    have hsame₂ : SameCounter ("ip:" ++ ip) store₁
        (store₁.withKey (settings.accountKey command.email) AuthnStore.resetLockout) :=
      sameCounter_account _ _ fun key hne => .resetLockout hne hwindow₁.up
    have hsame := hsame₁.trans hsame₂
    generalize store₁.withKey (settings.accountKey command.email) AuthnStore.resetLockout =
      store₂ at hsame
    obtain ⟨hwindow₃, hzero, hnow₃⟩ := (hsame.inWindow hwindow).resetLockout
    show Proc.Ends _ _ (LoginHandler.open_ settings command draws check)
      (store₂.resetLockout ("ip:" ++ ip))
    have hopen : Proc.Ends (AuthnStore.exec settings) (fun result store' =>
        SameCounter ("ip:" ++ ip) (store₂.resetLockout ("ip:" ++ ip)) store' ∧
          ∀ opened, result = .ok opened → opened ≠ .error .invalidCredentials)
        (LoginHandler.open_ settings command draws check) (store₂.resetLockout ("ip:" ++ ip)) :=
      ⟨ends_leaves _ (leaves_open command draws check),
        Proc.ends_of_returns (returns_open command draws check)⟩
    refine hopen.mono fun result store' ⟨hsame', hopened⟩ => ?_
    have hfailed : verificationFailed result = false := by
      unfold verificationFailed
      split
      · exact absurd rfl (hopened _ rfl)
      · rfl
    refine ⟨hsame'.inWindow hwindow₃, (hsame'.nowMs.trans hnow₃).trans hsame.nowMs,
      fun htrue => absurd (htrue.symm.trans hfailed) nofun, fun _ => Or.inr ⟨?_, ?_⟩⟩
    · rw [hsame'.failures, hzero]
    · exact ⟨hmatches.symm, hunlocked, haccount⟩

end Login

/-! ### A run of logins -/

/-- What one login does, with the time at which it is made. -/
theorem counted_attempt {settings : AuthnSettings} {ip : String} (hne : ip ≠ "")
    {fromMs untilMs : Int}
    (hlength : untilMs ≤ fromMs + settings.ipLockout.windowSeconds * 1000) {store : AuthnStore}
    (hwindow : InWindow ("ip:" ++ ip) fromMs untilMs store) {attempt : LoginAttempt}
    (hip : attempt.command.ip = some ip) (hat : fromMs ≤ attempt.atMs ∧ attempt.atMs < untilMs) :
    Counted settings ip fromMs untilMs attempt.command { store with nowMs := attempt.atMs }
      (attempt.run settings store).2 (attempt.run settings store).1 :=
  ends_login attempt.command attempt.draws hip hne ⟨hwindow.up, hwindow.rows⟩ hat hlength

/-- In every run of logins from one address within one window, with Redis up: at most
    `ipLockout.threshold` verifications run and fail, and for every login that succeeds while
    failures of the address are counted, as many again but one (a success finds fewer than the
    threshold). -/
theorem ip_lockout_bounds_failures (settings : AuthnSettings) (ip : String) (hne : ip ≠ "")
    (fromMs untilMs : Int) (hlength : untilMs ≤ fromMs + settings.ipLockout.windowSeconds * 1000)
    (store : AuthnStore) (hwindow : InWindow ("ip:" ++ ip) fromMs untilMs store)
    (attempts : List LoginAttempt) (hip : ∀ attempt ∈ attempts, attempt.command.ip = some ip)
    (hat : ∀ attempt ∈ attempts, fromMs ≤ attempt.atMs ∧ attempt.atMs < untilMs) :
    failedLogins settings store attempts + timesForgotten settings ip store attempts ≤
      settings.ipLockout.threshold * (timesForgotten settings ip store attempts + 1) := by
  -- what is counted already is taken from the threshold
  have hbound : ∀ t, fromMs ≤ t ∧ t < untilMs →
      failedLogins settings store attempts + timesForgotten settings ip store attempts ≤
      settings.ipLockout.threshold * timesForgotten settings ip store attempts +
        (settings.ipLockout.threshold -
          AuthnStore.failures { store with nowMs := t } ("ip:" ++ ip)) := by
    induction attempts generalizing store with
    | nil => exact fun _ _ => Nat.zero_le _
    | cons attempt attempts ih =>
      intro t ht
      have hatt := hat attempt (List.mem_cons_self ..)
      have hcounted := counted_attempt hne hlength hwindow
        (hip attempt (List.mem_cons_self ..)) hatt
      have hrest := ih (attempt.run settings store).1 hcounted.window
        (fun a ha => hip a (List.mem_cons_of_mem _ ha))
        (fun a ha => hat a (List.mem_cons_of_mem _ ha)) attempt.atMs hatt
      have hsame : AuthnStore.failures
          { (attempt.run settings store).1 with nowMs := attempt.atMs } ("ip:" ++ ip) =
          (attempt.run settings store).1.failures ("ip:" ++ ip) :=
        AuthnStore.failures_congr rfl hcounted.nowMs.symm
      rw [hsame] at hrest
      rw [hwindow.failures_eq ht hatt]
      have hcount : failedLogins settings store (attempt :: attempts) =
          failedLogins settings (attempt.run settings store).1 attempts +
            if verificationFailed (attempt.run settings store).2 = true then 1 else 0 :=
        List.countP_cons
      have hforgotten : timesForgotten settings ip store (attempt :: attempts) =
          timesForgotten settings ip (attempt.run settings store).1 attempts +
            if ForgetsFailures settings ip attempt { store with nowMs := attempt.atMs }
              then 1 else 0 := rfl
      rw [hcount, hforgotten, Nat.mul_add]
      by_cases hforgets : ForgetsFailures settings ip attempt { store with nowMs := attempt.atMs }
      · -- the address is not locked, so the failures that are forgotten are below the threshold
        have hup : AuthnStore.redisUp { store with nowMs := attempt.atMs } = true := hwindow.up
        have hbelow := AuthnStore.failures_lt_of_unlocked hup hforgets.2.1
        rw [if_pos hforgets]
        cases hfailed : verificationFailed (attempt.run settings store).2 with
        | true =>
          obtain ⟨-, hnext⟩ := hcounted.failed hfailed
          rw [if_pos rfl]
          omega
        | false =>
          rw [if_neg Bool.false_ne_true]
          omega
      · rw [if_neg hforgets]
        cases hfailed : verificationFailed (attempt.run settings store).2 with
        | true =>
          obtain ⟨hbelow, hnext⟩ := hcounted.failed hfailed
          rw [if_pos rfl]
          omega
        | false =>
          rw [if_neg Bool.false_ne_true]
          rcases hcounted.others hfailed with hnext | ⟨hnext, hmatches, hunlocked, haccount⟩
          · omega
          · -- a success, and nothing to forget
            have hzero : ¬ 0 < AuthnStore.failures { store with nowMs := attempt.atMs }
                ("ip:" ++ ip) :=
              fun hpos => hforgets ⟨hmatches, hunlocked, haccount, hpos⟩
            omega
  cases attempts with
  | nil => exact Nat.zero_le _
  | cons attempt attempts =>
    have hfirst := hbound attempt.atMs (hat attempt (List.mem_cons_self ..))
    rw [Nat.mul_add, Nat.mul_one]
    omega

/-- Two guesses from an address. -/
def strictSettings : AuthnSettings := { annSettings with ipLockout := ⟨2, 900⟩ }

def annFromHome (atMs : Int) : LoginAttempt :=
  ⟨atMs, ⟨"ann@example.com", "hash", none, some "192.0.2.1"⟩, ⟨⟨"s1"⟩, ⟨"f1"⟩, "t1", "j1", "raw1"⟩⟩

/-- A guess at another account. -/
def guessFromHome (atMs : Int) : LoginAttempt :=
  ⟨atMs, ⟨"bea@example.com", "guess", none, some "192.0.2.1"⟩, ⟨⟨"s2"⟩, ⟨"f2"⟩, "t2", "j2", "raw2"⟩⟩

/-- A login with a known password between two guesses, and a third guess. -/
def guessesAroundLogin : List LoginAttempt :=
  [guessFromHome 900000, annFromHome 901000, guessFromHome 902000, guessFromHome 903000,
    guessFromHome 904000]

theorem ip_lockout_bounds_guessesAroundLogin :
    failedLogins strictSettings annAuthnStore guessesAroundLogin +
        timesForgotten strictSettings "192.0.2.1" annAuthnStore guessesAroundLogin ≤
      2 * (timesForgotten strictSettings "192.0.2.1" annAuthnStore guessesAroundLogin + 1) :=
  ip_lockout_bounds_failures strictSettings "192.0.2.1" (by decide) 900000 1800000 (by decide)
    annAuthnStore ⟨rfl, nofun⟩ guessesAroundLogin (by decide) (by decide)

/-- Three guesses in one window, where two are allowed. -/
theorem ip_lockout_forgotten :
    (∀ attempt ∈ guessesAroundLogin, attempt.command.ip = some "192.0.2.1" ∧
      900000 ≤ attempt.atMs ∧
        attempt.atMs < 900000 + strictSettings.ipLockout.windowSeconds * 1000) ∧
    ¬ failedLogins strictSettings annAuthnStore guessesAroundLogin ≤
      strictSettings.ipLockout.threshold := by
  decide +kernel

end AccessCore
