/-
  A password reset that fails half way (`identity/application/reset-password.ts`,
  `authn/infrastructure/session/authn-session-revoker.ts`).

  The handler of one context ends with a call into the other: `revokeAllForUser` is
  `SessionTerminator.terminateAllForUser`, a program over the stores of sessions.  The new password,
  the consumed token and the revoked sessions are three commits one after the other.  A failure
  between the first and the last leaves a changed password with a token that can be used again, or
  with sessions that go on (`reset_allOrNothing_iff`).
-/
import AccessCore.Lib.Faults
import AccessCore.Identity.PasswordRaces
import AccessCore.Authn.RefreshSafety

namespace AccessCore

/-! ## Both contexts -/

structure ResetContexts where
  account : AccountStore
  authn : AuthnStore

inductive ResetOp where
  | account (op : AccountOp)
  | authn (op : AuthnOp)

def ResetOp.Answer : ResetOp → Type
  | account op => op.Answer
  | authn op => op.Answer

def ResetContexts.exec (crypto : AccountCrypto) (settings : AuthnSettings) :
    (op : ResetOp) → ResetContexts → ResetContexts × op.Answer
  | .account op, stores =>
    ({ stores with account := (stores.account.exec crypto op).1 },
      (stores.account.exec crypto op).2)
  | .authn op, stores =>
    ({ stores with authn := (stores.authn.exec settings op).1 }, (stores.authn.exec settings op).2)

abbrev ResetProc (α : Type) := Proc ResetOp ResetOp.Answer α

/-- `AuthnSessionRevoker.revokeAllForUser`. -/
def AuthnSessionRevoker.revokeAllForUser (settings : AuthnSettings) (userId : UserId) :
    ResetProc Unit := do
  let _sids ← (SessionTerminator.terminateAllForUser settings userId).via ResetOp.authn
    fun _ answer => answer
  return ()

/-- The ports of the handler; the `SessionRevoker` is the one of the other context. -/
def resetPorts (settings : AuthnSettings) : (op : AccountOp) → ResetProc op.Answer
  | .revokeAllForUser userId => AuthnSessionRevoker.revokeAllForUser settings userId
  | op => .ask (ResetOp.account op)

/-- A whole password reset. -/
def resetPassword (crypto : AccountCrypto) (settings : AuthnSettings)
    (command : ResetPasswordCommand) (salt : String) : ResetProc (Except ResetPasswordError Unit) :=
  (ResetPasswordHandler.execute crypto command salt).interpret (resetPorts settings)

/-! ## What is asked of a reset -/

def AccountStore.storedHash (store : AccountStore) (userId : UserId) : Option String :=
  (store.users.get userId).map (·.passwordHash)

/-- The token of a reset has been consumed. -/
def AccountStore.TokenConsumed (store : AccountStore) (tokenHash : String) : Prop :=
  ∃ token, findByHash store.passwordResetTokens tokenHash = some token ∧ token.isConsumed = true

/-- What was active for a user in `before` is revoked in `after`. -/
structure SessionsRevoked (userId : UserId) (before after : AuthnStore) : Prop where
  sessions : ∀ id ∈ before.activeSessionsOfUser userId, ∃ row ∈ after.sessions.get id,
    row.status = .revoked
  families : ∀ id ∈ before.activeFamiliesOfUser userId, ∃ row ∈ after.tokenFamilies.get id,
    row.status = .revoked

/-- Whose stored hash has changed, for them the token is consumed and nothing goes on. -/
def ResetAllOrNothing (tokenHash : String) (before after : ResetContexts) : Prop :=
  ∀ userId, after.account.storedHash userId ≠ before.account.storedHash userId →
    after.account.TokenConsumed tokenHash ∧ SessionsRevoked userId before.authn after.authn

/-! ## When the reset gets to its writes -/

section Reset

variable (crypto : AccountCrypto) (command : ResetPasswordCommand) (salt : String)

/-- The token and the user of a reset that gets as far as to write, and the password. -/
def toReset (store : AccountStore) : Option (PasswordResetToken × User × String) :=
  match Password.create command.password with
  | .error _ => none
  | .ok password => do
    let token ← (findByHash store.passwordResetTokens (crypto.tokenHash command.token)).filter
      (·.isValid store.nowMs)
    let user ← store.users.get token.userId
    return (token, user, password)

/-- Whether the reset is all or nothing when its operation after the first `n` fails. -/
def ResetFailsSafely (stores : ResetContexts) (n : Nat) : Prop :=
  match toReset crypto command stores.account with
  | none => True
  | some (_, user, password) =>
    n ≤ 4 ∨ 10 ≤ n ∨ crypto.passwordHash password salt = user.passwordHash ∨
      6 ≤ n ∧ stores.authn.activeSessionsOfUser user.id = [] ∧
        stores.authn.activeFamiliesOfUser user.id = []

/-- The end of a reset, after the save of the user. -/
def closeReset (token : PasswordResetToken) (user : User) (now : Int) :
    AccountProc (Except ResetPasswordError Unit) := do
  Proc.ask (AccountOp.consumeResetToken (token.consume now))
  Proc.ask (AccountOp.revokeAllForUser user.id)
  return .ok ()

/-- The writes of a reset. -/
def resetWrites (settings : AuthnSettings) (token : PasswordResetToken) (user : User)
    (password : String) (now : Int) : ResetProc (Except ResetPasswordError Unit) :=
  Proc.interpret (resetPorts settings) (do
    AccountProc.saveUser (user.changePassword (crypto.passwordHash password salt) now)
    closeReset token user now)

variable {crypto command salt} {settings : AuthnSettings} {stores : ResetContexts}

/-- After four operations the reset has ended, or is about to write. -/
theorem reaches_reset : Proc.Reaches (ResetContexts.exec crypto settings) 4
    (resetPassword crypto settings command salt) stores
    ((toReset crypto command stores.account).map fun (token, user, password) =>
      resetWrites crypto salt settings token user password stores.account.nowMs) := by
  unfold resetPassword ResetPasswordHandler.execute toReset
  cases Password.create command.password with
  | error e => exact Proc.reaches_done
  | ok password =>
  refine Proc.reaches_call rfl (Proc.reaches_call rfl ?_)
  have hnow : (ResetContexts.exec crypto settings (.account .now) stores).2 =
      stores.account.nowMs := rfl
  have hfindToken : (ResetContexts.exec crypto settings (.account (.findResetToken
      (crypto.tokenHash command.token))) stores).2 =
        findByHash stores.account.passwordResetTokens (crypto.tokenHash command.token) := rfl
  dsimp only [Proc.bind, Proc.interpret]
  rw [hnow, hfindToken]
  cases Option.filter (·.isValid stores.account.nowMs)
      (findByHash stores.account.passwordResetTokens (crypto.tokenHash command.token)) with
  | none => exact Proc.reaches_done
  | some token =>
  refine Proc.reaches_call rfl ?_
  have hfindUser : (ResetContexts.exec crypto settings (.account (.findUser token.userId))
      stores).2 = stores.account.users.get token.userId := rfl
  dsimp only [Proc.bind]
  rw [hfindUser]
  simp only [Option.bind_eq_bind, Option.bind_some]
  cases stores.account.users.get token.userId with
  | none => exact Proc.reaches_done
  | some user =>
  refine Proc.reaches_call rfl ?_
  exact Proc.reaches_self

/-! ## What the writes leave -/

variable (crypto salt) in
/-- The account store once the new password is saved. -/
def savedPassword (store : AccountStore) (user : User) (password : String) : AccountStore :=
  (store.saveUser (user.changePassword (crypto.passwordHash password salt) store.nowMs).1
    (user.changePassword (crypto.passwordHash password salt) store.nowMs).2).1

/-- The account store once the token is consumed too. -/
def consumedToken (store : AccountStore) (token : PasswordResetToken) (now : Int) : AccountStore :=
  { store with
    passwordResetTokens := consumeToken store.passwordResetTokens (token.consume now) }

/-- The sessions after the transaction of `terminateAllForUser`. -/
def terminatedAll (store : AuthnStore) (userId : UserId) : AuthnStore :=
  store.terminateAll "logout_all" store.nowMs (store.activeFamiliesOfUser userId)
    (store.activeSessionsOfUser userId)

/-- An entry of the blocklist. -/
def ResetOp.Blocklists : ResetOp → Prop
  | .authn (.revokeSubject _ _) => True
  | _ => False

/-- What a reset is about, apart from the blocklist. -/
structure SameRows (before after : ResetContexts) : Prop where
  account : after.account = before.account
  sessions : after.authn.sessions = before.authn.sessions
  families : after.authn.tokenFamilies = before.authn.tokenFamilies

theorem sameRows_blocklist {s₀ : ResetContexts} (op : ResetOp) (s : ResetContexts)
    (h : op.Blocklists)
    (hs : SameRows s₀ s) : SameRows s₀ (ResetContexts.exec crypto settings op s).1 := by
  have hkeeps : ∀ (authn : AuthnStore) subject ttlSeconds,
      (authn.revokeSubject subject ttlSeconds).sessions = authn.sessions ∧
        (authn.revokeSubject subject ttlSeconds).tokenFamilies = authn.tokenFamilies := by
    intro authn subject ttlSeconds
    unfold AuthnStore.revokeSubject
    split_ifs <;> exact ⟨rfl, rfl⟩
  cases op with
  | account op => exact h.elim
  | authn op =>
    cases op with
    | revokeSubject subject ttlSeconds =>
      obtain ⟨hsessions, hfamilies⟩ := hkeeps s.authn subject ttlSeconds
      exact ⟨hs.account, hsessions.trans hs.sessions, hfamilies.trans hs.families⟩
    | _ => exact h.elim

theorem asks_blocklists : ∀ sids : List SessionId,
    (SessionTerminator.blocklistAll settings sids).Asks fun op => (ResetOp.authn op).Blocklists
  | [] => trivial
  | _ :: sids => ⟨trivial, fun _ => asks_blocklists sids⟩

variable (crypto settings) in
/-- The revocation: three reads, the transaction, and the blocklist. -/
theorem revokeAll_cases (s : ResetContexts) (userId : UserId)
    (result : Except ResetPasswordError Unit) (n : Nat) :
    let after := (Proc.failAfter (ResetContexts.exec crypto settings) n
      (AuthnSessionRevoker.revokeAllForUser settings userId >>= fun _ => .done result) s).1
    n ≤ 3 ∧ after = s ∨
      4 ≤ n ∧ SameRows { s with authn := terminatedAll s.authn userId } after := by
  intro after
  -- after the transaction nothing but the blocklist is written
  have htail : ∀ sids : List SessionId, Proc.Asks ResetOp.Blocklists
      (((SessionTerminator.blocklistAll settings sids >>= fun _ => .done sids).via ResetOp.authn
        (fun _ answer => answer) >>= fun _ => .done ()) >>= fun _ => .done result :
          ResetProc _) := by
    intro sids
    refine Proc.asks_bind (fun _ => ?_) (Proc.asks_bind (fun _ => ?_) ?_)
    · trivial
    · trivial
    · refine Proc.asks_via (Q := fun op => (ResetOp.authn op).Blocklists) (fun _ hop => hop) ?_
      exact Proc.asks_bind (fun _ => by trivial) (asks_blocklists sids)
  have hreaches : Proc.Reaches (ResetContexts.exec crypto settings) 3
      (AuthnSessionRevoker.revokeAllForUser settings userId >>= fun _ => .done result) s _ :=
    Proc.reaches_call rfl (Proc.reaches_call rfl (Proc.reaches_call rfl Proc.reaches_self))
  rcases Nat.lt_or_ge 3 n with hlate | hearly
  · obtain ⟨m, rfl⟩ := Nat.exists_eq_add_of_le hlate
    refine Or.inr ⟨by omega, ?_⟩
    have hsum : 3 + 1 + m = 3 + (m + 1) := by omega
    show SameRows _ (Proc.failAfter _ (3 + 1 + m) _ _).1
    rw [hsum, hreaches.rest]
    show SameRows _ (Proc.after _ m _ { s with authn := terminatedAll s.authn userId }).1
    exact Proc.after_keeps (SameRows _) sameRows_blocklist (htail _) ⟨rfl, rfl, rfl⟩
  · exact Or.inl ⟨hearly, hreaches.state (Or.inl hearly)⟩

variable (crypto salt settings) in
/-- The writes: the password, the token, and the sessions. -/
theorem resetWrites_cases (token : PasswordResetToken) {user : User} (password : String)
    (hrow : stores.account.users.get user.id = some user) (n : Nat) :
    let now := stores.account.nowMs
    let saved := savedPassword crypto salt stores.account user password
    let after := (Proc.failAfter (ResetContexts.exec crypto settings) n
      (resetWrites crypto salt settings token user password now) stores).1
    n = 0 ∧ after = stores ∨
      n = 1 ∧ after = { stores with account := saved } ∨
      (2 ≤ n ∧ n ≤ 5) ∧ after = { stores with account := consumedToken saved token now } ∨
      6 ≤ n ∧ SameRows ⟨consumedToken saved token now,
        terminatedAll stores.authn user.id⟩ after := by
  intro now saved after
  have hsaved : (stores.account.saveUser
      (user.changePassword (crypto.passwordHash password salt) now).1
      (user.changePassword (crypto.passwordHash password salt) now).2).2 = true := by
    rcases stores.account.saveUser_cases
      (user.changePassword (crypto.passwordHash password salt) now).1
      (user.changePassword (crypto.passwordHash password salt) now).2 with ⟨-, hnone⟩ | ⟨h, -⟩
    · rw [User.changePassword_id, hrow] at hnone
      cases hnone
    · exact h
  rcases n with _ | n
  · exact Or.inl ⟨rfl, rfl⟩
  -- the save is through
  have hnext : after = (Proc.failAfter (ResetContexts.exec crypto settings) n
      (Proc.interpret (resetPorts settings) (closeReset token user now))
      { stores with account := saved }).1 := by
    show (Proc.failAfter _ n (Proc.interpret _ ((if (stores.account.saveUser _ _).2 = true then
      .done () else .thrown _) >>= _)) { stores with account := saved }).1 = _
    rw [if_pos hsaved, Proc.done_bind]
  rcases n with _ | n
  · exact Or.inr (Or.inl ⟨rfl, hnext⟩)
  -- the token is consumed
  have hlast : after = (Proc.failAfter (ResetContexts.exec crypto settings) n
      (AuthnSessionRevoker.revokeAllForUser settings user.id >>= fun _ => .done (Except.ok ()))
      { stores with account := consumedToken saved token now }).1 := hnext
  rcases revokeAll_cases crypto settings { stores with account := consumedToken saved token now }
    user.id (.ok ()) n with ⟨hearly, hsame⟩ | ⟨hlate, hrows⟩
  · exact Or.inr (Or.inr (Or.inl ⟨by omega, hlast.trans hsame⟩))
  · exact Or.inr (Or.inr (Or.inr ⟨by omega, hlast ▸ hrows⟩))

/-! ## What is left of the old state -/

variable (crypto salt) in
theorem storedHash_saved {user : User} (password : String)
    (hrow : stores.account.users.get user.id = some user) (userId : UserId) :
    (savedPassword crypto salt stores.account user password).storedHash userId =
      if userId = user.id then some (crypto.passwordHash password salt)
      else stores.account.storedHash userId := by
  unfold AccountStore.storedHash savedPassword
  rcases stores.account.saveUser_cases
    (user.changePassword (crypto.passwordHash password salt) stores.account.nowMs).1
    (user.changePassword (crypto.passwordHash password salt) stores.account.nowMs).2 with
    ⟨-, hnone⟩ | ⟨-, hget⟩
  · rw [User.changePassword_id, hrow] at hnone
    cases hnone
  · rw [hget, User.changePassword_id]
    split_ifs with hid
    · rw [hid, hrow]
      rfl
    · rfl

theorem tokenConsumed_consumed {store : AccountStore} {tokenHash : String}
    {token : PasswordResetToken}
    (hfound : findByHash store.passwordResetTokens tokenHash = some token) (now : Int) :
    (consumedToken store token now).TokenConsumed tokenHash := by
  have hid : token.id = (token.consume now).id := rfl
  refine ⟨token.consume now, ?_, rfl⟩
  unfold consumedToken
  rw [findByHash_consumeToken, hfound, Option.map_some, if_pos hid]
  rfl

/-- The row of a selected key. -/
theorem get_of_selected {ρ κ : Type} [DecidableEq κ] {key : ρ → κ} {table : Table ρ κ key}
    {p : ρ → Bool} {k : κ} (h : k ∈ (table.select p).map key) :
    ∃ row, table.get k = some row ∧ p row = true := by
  obtain ⟨row, hmem, rfl⟩ := List.mem_map.mp h
  obtain ⟨hrow, hp⟩ := List.mem_filter.mp hmem
  exact ⟨row, Table.get_of_mem hrow, hp⟩

/-- Where nothing was revoked, nothing was active. -/
theorem sessionsRevoked_self {store : AuthnStore} {userId : UserId} :
    SessionsRevoked userId store store ↔
      store.activeSessionsOfUser userId = [] ∧ store.activeFamiliesOfUser userId = [] := by
  constructor
  · rintro ⟨hsessions, hfamilies⟩
    constructor
    · refine List.eq_nil_iff_forall_not_mem.mpr fun id hid => ?_
      obtain ⟨row, hrow, hrevoked⟩ := hsessions id hid
      obtain ⟨row', hrow', hactive⟩ := get_of_selected hid
      obtain rfl := Option.some.inj (hrow'.symm.trans hrow)
      simp [hrevoked] at hactive
    · refine List.eq_nil_iff_forall_not_mem.mpr fun id hid => ?_
      obtain ⟨row, hrow, hrevoked⟩ := hfamilies id hid
      obtain ⟨row', hrow', hactive⟩ := get_of_selected hid
      obtain rfl := Option.some.inj (hrow'.symm.trans hrow)
      simp [hrevoked] at hactive
  · rintro ⟨hsessions, hfamilies⟩
    constructor
    · rw [hsessions]
      exact fun _ h => absurd h List.not_mem_nil
    · rw [hfamilies]
      exact fun _ h => absurd h List.not_mem_nil

/-- The transaction of `terminateAllForUser` revokes what it has found. -/
theorem sessionsRevoked_terminated (store : AuthnStore) (userId : UserId) :
    SessionsRevoked userId store (terminatedAll store userId) := by
  constructor
  · intro id hid
    obtain ⟨row, hrow, hp⟩ := get_of_selected hid
    obtain ⟨-, hkey⟩ := Table.mem_of_get hrow
    obtain ⟨-, hactive⟩ := Bool.and_eq_true_iff.mp hp
    refine ⟨row.revoke store.nowMs, Table.get_update_of_match (Session.revoke_id _) hrow ?_, rfl⟩
    rw [hkey, hactive, Bool.and_true]
    exact List.contains_iff_mem.mpr hid
  · intro id hid
    obtain ⟨row, hrow, hp⟩ := get_of_selected hid
    obtain ⟨-, hkey⟩ := Table.mem_of_get hrow
    obtain ⟨-, hactive⟩ := Bool.and_eq_true_iff.mp hp
    refine ⟨row.revoke "logout_all" store.nowMs,
      Table.get_update_of_match (TokenFamily.revoke_id _ _) hrow ?_, rfl⟩
    rw [hkey, hactive, Bool.and_true]
    exact List.contains_iff_mem.mpr hid

theorem SessionsRevoked.congr {userId : UserId} {before : AuthnStore} {after after' : AuthnStore}
    (h : SessionsRevoked userId before after) (hsessions : after'.sessions = after.sessions)
    (hfamilies : after'.tokenFamilies = after.tokenFamilies) :
    SessionsRevoked userId before after' := by
  constructor
  · rw [hsessions]
    exact h.sessions
  · rw [hfamilies]
    exact h.families

/-! ## The whole reset -/

theorem resetAllOrNothing_of_account {tokenHash : String} {before after : ResetContexts}
    (h : after.account = before.account) : ResetAllOrNothing tokenHash before after := by
  intro userId hchanged
  rw [h] at hchanged
  exact absurd rfl hchanged

theorem toReset_some {store : AccountStore} {token : PasswordResetToken} {user : User}
    {password : String} (h : toReset crypto command store = some (token, user, password)) :
    findByHash store.passwordResetTokens (crypto.tokenHash command.token) = some token ∧
      token.isConsumed = false ∧ store.users.get user.id = some user := by
  unfold toReset at h
  cases hpassword : Password.create command.password with
  | error e =>
    rw [hpassword] at h
    cases h
  | ok created =>
    rw [hpassword] at h
    obtain ⟨found, hfound, h⟩ := Option.bind_eq_some_iff.mp h
    obtain ⟨owner, howner, h⟩ := Option.bind_eq_some_iff.mp h
    have heq : (found, owner, created) = (token, user, password) := Option.some.inj h
    simp only [Prod.mk.injEq] at heq
    obtain ⟨rfl, rfl, -⟩ := heq
    obtain ⟨hfound, hvalid⟩ := Option.filter_eq_some_iff.mp hfound
    obtain ⟨hfree, -⟩ := MailedToken.isValid_iff.mp hvalid
    obtain ⟨hmem, -⟩ := Table.mem_of_get howner
    refine ⟨hfound, ?_, Table.get_of_mem hmem⟩
    unfold MailedToken.isConsumed
    rw [hfree]
    rfl

/-- Once the new hash is written, its user is the one to look at. -/
theorem resetAllOrNothing_of_written {tokenHash hash : String} {user : User} {after : ResetContexts}
    (hrow : stores.account.users.get user.id = some user)
    (hafter : ∀ userId, after.account.storedHash userId =
      if userId = user.id then some hash else stores.account.storedHash userId) :
    ResetAllOrNothing tokenHash stores after ↔
      (hash ≠ user.passwordHash → after.account.TokenConsumed tokenHash ∧
        SessionsRevoked user.id stores.authn after.authn) := by
  have hbefore : stores.account.storedHash user.id = some user.passwordHash := by
    unfold AccountStore.storedHash
    rw [hrow]
    rfl
  constructor
  · intro h hne
    apply h user.id
    rw [hafter, if_pos rfl, hbefore]
    exact fun heq => hne (Option.some.inj heq)
  · intro h userId hchanged
    rw [hafter] at hchanged
    by_cases hid : userId = user.id
    · rw [if_pos hid, hid, hbefore] at hchanged
      rw [hid]
      exact h fun heq => hchanged (congrArg some heq)
    · rw [if_neg hid] at hchanged
      exact absurd rfl hchanged

end Reset

/-- **A reset is all or nothing exactly when it fails before its first write or after its last,
changes no hash, or has consumed the token of a user without sessions.** -/
theorem reset_allOrNothing_iff (crypto : AccountCrypto) (settings : AuthnSettings)
    (command : ResetPasswordCommand) (salt : String) (stores : ResetContexts) (n : Nat) :
    ResetAllOrNothing (crypto.tokenHash command.token) stores
        (Proc.failAfter (ResetContexts.exec crypto settings) n
          (resetPassword crypto settings command salt) stores).1 ↔
      ResetFailsSafely crypto command salt stores n := by
  have hreaches : Proc.Reaches (ResetContexts.exec crypto settings) 4
    (resetPassword crypto settings command salt) stores _ := reaches_reset
  unfold ResetFailsSafely
  cases hfound : toReset crypto command stores.account with
  | none =>
    rw [hfound] at hreaches
    have hstate := hreaches.state (n := n) (Or.inr rfl)
    exact iff_of_true (resetAllOrNothing_of_account (by rw [hstate])) trivial
  | some found =>
  obtain ⟨token, user, password⟩ := found
  obtain ⟨htoken, hunconsumed, hrow⟩ := toReset_some hfound
  rw [hfound] at hreaches
  rcases Nat.lt_or_ge n 4 with hearly | hlate
  · have hstate := hreaches.state (n := n) (Or.inl (by omega))
    exact iff_of_true (resetAllOrNothing_of_account (by rw [hstate])) (Or.inl (by omega))
  obtain ⟨m, rfl⟩ := Nat.exists_eq_add_of_le hlate
  rw [hreaches.rest m]
  have hhash := storedHash_saved crypto salt password hrow
  have hcases := resetWrites_cases crypto salt settings token password hrow m
  dsimp only at hcases
  show ResetAllOrNothing _ _ (Proc.failAfter _ m
    (resetWrites crypto salt settings token user password stores.account.nowMs) stores).1 ↔ _
  generalize (Proc.failAfter (ResetContexts.exec crypto settings) m
    (resetWrites crypto salt settings token user password stores.account.nowMs) stores).1 = after
    at hcases ⊢
  generalize hsaved : savedPassword crypto salt stores.account user password = saved
    at hhash hcases
  have htoken' : findByHash saved.passwordResetTokens (crypto.tokenHash command.token) =
      some token := by
    rw [← htoken, ← hsaved]
    exact congrArg (findByHash · _) (AccountStore.saveUser_passwordResetTokens _ _ _)
  have hconsumed := tokenConsumed_consumed htoken' stores.account.nowMs
  rcases hcases with ⟨hm, hafter⟩ | ⟨hm, hafter⟩ | ⟨hm, hafter⟩ | ⟨hm, hafter⟩
  · -- nothing is written yet
    exact iff_of_true (resetAllOrNothing_of_account (by rw [hafter])) (Or.inl (by omega))
  · -- the token can be used again
    rw [hafter, resetAllOrNothing_of_written hrow hhash]
    have hfree : ¬ saved.TokenConsumed (crypto.tokenHash command.token) := by
      rintro ⟨found, hfound, hconsumed⟩
      obtain rfl := Option.some.inj (htoken'.symm.trans hfound)
      rw [hunconsumed] at hconsumed
      cases hconsumed
    constructor
    · intro h
      refine Or.inr (Or.inr (Or.inl ?_))
      by_contra hne
      exact hfree (h hne).1
    · rintro (h4 | h10 | heq | ⟨h6, -⟩)
      · omega
      · omega
      · exact fun hne => absurd heq hne
      · omega
  · -- the sessions go on
    rw [hafter, resetAllOrNothing_of_written hrow hhash, sessionsRevoked_self]
    constructor
    · intro h
      by_cases heq : crypto.passwordHash password salt = user.passwordHash
      · exact Or.inr (Or.inr (Or.inl heq))
      · exact Or.inr (Or.inr (Or.inr ⟨by omega, (h heq).2⟩))
    · rintro (h4 | h10 | heq | ⟨-, hnone⟩)
      · omega
      · omega
      · exact fun hne => absurd heq hne
      · exact fun _ => ⟨hconsumed, hnone⟩
  · -- nothing is left to do but the blocklist
    obtain ⟨haccount, hsessions, hfamilies⟩ := hafter
    refine iff_of_true ?_ (Or.inr (Or.inl (by omega)))
    have hwritten : ∀ userId, after.account.storedHash userId =
        if userId = user.id then some (crypto.passwordHash password salt)
        else stores.account.storedHash userId := by
      rw [haccount]
      exact hhash
    refine (resetAllOrNothing_of_written hrow hwritten).mpr fun _ => ⟨?_, ?_⟩
    · rw [haccount]
      exact hconsumed
    · exact (sessionsRevoked_terminated stores.authn user.id).congr hsessions hfamilies

/-- Ann resets her password while a session of hers is active. -/
def annResets : ResetContexts where
  account := annAccount
  authn :=
    { annAuthnStore with
      sessions := ⟨[⟨⟨"s1"⟩, ⟨"ann"⟩, none, 1, 0, .active, none, none, none, 0, 0, 1800000, none⟩],
        by decide⟩ }

/-- The transaction that revokes the sessions fails: the session goes on under the new password. -/
theorem reset_half_done :
    ¬ ∀ crypto settings command salt stores n,
      ResetAllOrNothing (crypto.tokenHash command.token) stores
        (Proc.failAfter (ResetContexts.exec crypto settings) n
          (resetPassword crypto settings command salt) stores).1 := by
  intro h
  have hann := h plainCrypto annSettings ⟨"reset-token", "first-password"⟩ "1" annResets 9 ⟨"ann"⟩
    (by decide)
  obtain ⟨row, hrow, hrevoked⟩ := hann.2.sessions ⟨"s1"⟩ (by decide)
  have hactive : ∀ row ∈ (Proc.failAfter (ResetContexts.exec plainCrypto annSettings) 9
      (resetPassword plainCrypto annSettings ⟨"reset-token", "first-password"⟩ "1")
        annResets).1.authn.sessions.get ⟨"s1"⟩, row.status = .active := by decide
  rw [hactive row hrow] at hrevoked
  cases hrevoked

end AccessCore
