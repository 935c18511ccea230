/-
  Password resets and email verifications (`identity/application/reset-password.ts`,
  `verify-email.ts`) and the tables they share (`drizzle-users.repository.ts`,
  `drizzle-password-reset-tokens.repository.ts`, `drizzle-verification-tokens.repository.ts`).

  Both load a token and then a user, change their copies, and write both back: the user with every
  mutable column, the token by its id.  Neither write asks what the row has become since.

  The hash of a token and the salted hash of a password are parameters.
-/
import AccessCore.Identity.MfaHandlers

namespace AccessCore

open Interleave

/-! ## Users and tokens -/

structure DomainEvent where
  type : String
  occurredAt : Int
  aggregateId : String
  payload : List (String × String)
deriving DecidableEq, Repr

namespace User

/-- The user after `verifyEmail`, and the events it adds. -/
def verifyEmail (user : User) (now : Int) : User × List DomainEvent :=
  if user.status = .active then (user, [])
  else ({ user with status := .active, emailVerifiedAt := some now, updatedAt := now },
    [⟨"identity.email_verified", now, user.id.value, []⟩])

def changePassword (user : User) (passwordHash : String) (now : Int) : User × List DomainEvent :=
  ({ user with passwordHash := passwordHash, updatedAt := now },
    [⟨"identity.password_changed", now, user.id.value, []⟩])

@[simp] theorem verifyEmail_id (user : User) (now : Int) :
    (user.verifyEmail now).1.id = user.id := by
  unfold verifyEmail
  split_ifs <;> rfl

@[simp] theorem verifyEmail_passwordHash (user : User) (now : Int) :
    (user.verifyEmail now).1.passwordHash = user.passwordHash := by
  unfold verifyEmail
  split_ifs <;> rfl

@[simp] theorem verifyEmail_status (user : User) (now : Int) :
    (user.verifyEmail now).1.status = .active := by
  unfold verifyEmail
  split_ifs with h
  · exact h
  · rfl

@[simp] theorem changePassword_id (user : User) (passwordHash : String) (now : Int) :
    (user.changePassword passwordHash now).1.id = user.id := rfl

@[simp] theorem changePassword_status (user : User) (passwordHash : String) (now : Int) :
    (user.changePassword passwordHash now).1.status = user.status := rfl

@[simp] theorem changePassword_passwordHash (user : User) (passwordHash : String) (now : Int) :
    (user.changePassword passwordHash now).1.passwordHash = passwordHash := rfl

end User

/-- A token that is sent by mail and stored as a hash; the classes of both kinds are the same. -/
structure MailedToken where
  id : String
  userId : UserId
  tokenHash : String
  expiresAt : Int
  consumedAt : Option Int
  createdAt : Int
deriving DecidableEq, Repr

abbrev PasswordResetToken := MailedToken
abbrev EmailVerificationToken := MailedToken

namespace MailedToken

def isExpired (token : MailedToken) (now : Int) : Bool := token.expiresAt ≤ now

def isConsumed (token : MailedToken) : Bool := token.consumedAt.isSome

def consume (token : MailedToken) (now : Int) : MailedToken := { token with consumedAt := some now }

/-- The check of both handlers. -/
def isValid (token : MailedToken) (now : Int) : Bool := !token.isConsumed && !token.isExpired now

theorem isValid_iff {token : MailedToken} {now : Int} :
    token.isValid now = true ↔ token.consumedAt = none ∧ now < token.expiresAt := by
  simp [isValid, isConsumed, isExpired]

end MailedToken

inductive PasswordError where
  | tooShort
  | tooLong
deriving DecidableEq, Repr

namespace Password

def minLength : Nat := 8
def maxLength : Nat := 128

def create (input : String) : Except PasswordError String :=
  if Rfc6238Totp.textLength input < minLength then .error .tooShort
  else if Rfc6238Totp.textLength input > maxLength then .error .tooLong
  else .ok input

end Password

/-! ## Tables -/

structure AccountStore where
  users : Table User UserId (·.id)
  outbox : List DomainEvent
  passwordResetTokens : Table PasswordResetToken String (·.id)
  verificationTokens : Table EmailVerificationToken String (·.id)
  /-- the users whose sessions the `SessionRevoker` has been told to revoke -/
  revokedSessions : List UserId
  nowMs : Int

/-- What the handlers use of the cryptographic libraries. -/
structure AccountCrypto where
  tokenHash : String → String
  passwordHash : (password salt : String) → String

/-- `findByHash` of both token repositories. -/
def findByHash (tokens : Table MailedToken String (·.id)) (tokenHash : String) :
    Option MailedToken :=
  tokens.rows.find? fun row => row.tokenHash = tokenHash

/-- `consume` of both: whatever the row is by now. -/
def consumeToken (tokens : Table MailedToken String (·.id)) (token : MailedToken) :
    Table MailedToken String (·.id) :=
  tokens.update (fun row => row.id = token.id)
    (fun row => { row with consumedAt := token.consumedAt })
    fun _ => rfl

/-- The row of a hash stays its row, and no other is written to. -/
theorem findByHash_consumeToken (tokens : Table MailedToken String (·.id)) (token : MailedToken)
    (tokenHash : String) : findByHash (consumeToken tokens token) tokenHash =
      (findByHash tokens tokenHash).map fun row =>
        if row.id = token.id then { row with consumedAt := token.consumedAt } else row := by
  unfold findByHash consumeToken Table.update
  simp only [List.find?_map, decide_eq_true_eq]
  congr 1
  apply List.find?_congr
  intro row _
  show decide ((if row.id = token.id then { row with consumedAt := token.consumedAt }
    else row).tokenHash = tokenHash) = _
  split_ifs <;> rfl

namespace AccountStore

/-- On a conflict the email and the time of creation stay. -/
def mergeUser (old new : User) : User :=
  { old with
    status := new.status
    passwordHash := new.passwordHash
    emailVerifiedAt := new.emailVerifiedAt
    updatedAt := new.updatedAt }

theorem mergeUser_keeps : Table.KeepsKey (·.id) mergeUser := fun _ _ h => h

/-- The transaction of `DrizzleUsersRepository.save`; `false` when a new user's email is taken. -/
def saveUser (store : AccountStore) (user : User) (events : List DomainEvent) :
    AccountStore × Bool :=
  if (store.users.get user.id).isNone && store.users.rows.any fun row => row.email = user.email then
    (store, false)
  else ({ store with
    users := store.users.upsert mergeUser mergeUser_keeps user
    outbox := store.outbox ++ events }, true)

theorem saveUser_cases (store : AccountStore) (user : User) (events : List DomainEvent) :
    store.saveUser user events = (store, false) ∧ store.users.get user.id = none ∨
      (store.saveUser user events).2 = true ∧
        ∀ id, (store.saveUser user events).1.users.get id =
          if id = user.id then some (((store.users.get id).map (mergeUser · user)).getD user)
          else store.users.get id := by
  unfold saveUser
  split_ifs with h
  · have hnone := (Bool.and_eq_true_iff.mp h).1
    exact Or.inl ⟨rfl, Option.isNone_iff_eq_none.mp hnone⟩
  · exact Or.inr ⟨rfl, fun id => Table.get_upsert mergeUser_keeps id⟩

@[simp] theorem saveUser_passwordResetTokens (store : AccountStore) (user : User)
    (events : List DomainEvent) :
    (store.saveUser user events).1.passwordResetTokens = store.passwordResetTokens := by
  unfold saveUser
  split_ifs <;> rfl

end AccountStore

/-! ## Operations -/

inductive AccountOp where
  | now
  | findResetToken (tokenHash : String)
  | consumeResetToken (token : PasswordResetToken)
  | findVerificationToken (tokenHash : String)
  | consumeVerificationToken (token : EmailVerificationToken)
  | findUser (userId : UserId)
  | hashPassword (password salt : String)
  | saveUser (user : User) (events : List DomainEvent)
  | revokeAllForUser (userId : UserId)
deriving DecidableEq

def AccountOp.Answer : AccountOp → Type
  | now => Int
  | findResetToken _ => Option PasswordResetToken
  | consumeResetToken _ => Unit
  | findVerificationToken _ => Option EmailVerificationToken
  | consumeVerificationToken _ => Unit
  | findUser _ => Option User
  | hashPassword _ _ => String
  | saveUser _ _ => Bool
  | revokeAllForUser _ => Unit

def AccountStore.exec (crypto : AccountCrypto) :
    (op : AccountOp) → AccountStore → AccountStore × op.Answer
  | .now, store => (store, store.nowMs)
  | .findResetToken tokenHash, store => (store, findByHash store.passwordResetTokens tokenHash)
  | .consumeResetToken token, store =>
    ({ store with passwordResetTokens := consumeToken store.passwordResetTokens token }, ())
  | .findVerificationToken tokenHash, store =>
    (store, findByHash store.verificationTokens tokenHash)
  | .consumeVerificationToken token, store =>
    ({ store with verificationTokens := consumeToken store.verificationTokens token }, ())
  | .findUser userId, store => (store, store.users.get userId)
  | .hashPassword password salt, store => (store, crypto.passwordHash password salt)
  | .saveUser user events, store => store.saveUser user events
  | .revokeAllForUser userId, store =>
    ({ store with revokedSessions := store.revokedSessions ++ [userId] }, ())

abbrev AccountProc (α : Type) := Proc AccountOp AccountOp.Answer α

namespace AccountProc

def now : AccountProc Int := .ask AccountOp.now

def findUser (userId : UserId) : AccountProc (Option User) := .ask (AccountOp.findUser userId)

/-- `users.save`, of a user and the events it has collected. -/
def saveUser (changed : User × List DomainEvent) : AccountProc Unit := do
  let saved : Bool ← .ask (AccountOp.saveUser changed.1 changed.2)
  if saved then return ()
  else .thrown "duplicate key value violates unique constraint \"users_email_unique\""

end AccountProc

/-! ## The handlers -/

structure ResetPasswordCommand where
  token : String
  password : String
deriving DecidableEq, Repr

inductive ResetPasswordError where
  | invalidPassword
  | invalidToken
deriving DecidableEq, Repr

/-- `ResetPasswordHandler.execute`, with the salt that the hasher draws. -/
def ResetPasswordHandler.execute (crypto : AccountCrypto) (command : ResetPasswordCommand)
    (salt : String) : AccountProc (Except ResetPasswordError Unit) :=
  match Password.create command.password with
  | .error _ => return .error .invalidPassword
  | .ok password => do
    let tokenHash := crypto.tokenHash command.token
    let token : Option PasswordResetToken ← .ask (AccountOp.findResetToken tokenHash)
    let now ← AccountProc.now
    match token.filter (·.isValid now) with
    | none => return .error .invalidToken
    | some token => do
      match ← AccountProc.findUser token.userId with
      | none => return .error .invalidToken
      | some user => do
        let passwordHash : String ← .ask (AccountOp.hashPassword password salt)
        AccountProc.saveUser (user.changePassword passwordHash now)
        Proc.ask (AccountOp.consumeResetToken (token.consume now))
        Proc.ask (AccountOp.revokeAllForUser user.id)
        return .ok ()

structure VerifyEmailCommand where
  token : String
deriving DecidableEq, Repr

inductive VerifyEmailError where
  | invalidToken
deriving DecidableEq, Repr

/-- `VerifyEmailHandler.execute`. -/
def VerifyEmailHandler.execute (crypto : AccountCrypto) (command : VerifyEmailCommand) :
    AccountProc (Except VerifyEmailError Unit) := do
  let tokenHash := crypto.tokenHash command.token
  let token : Option EmailVerificationToken ← .ask (AccountOp.findVerificationToken tokenHash)
  let now ← AccountProc.now
  match token.filter (·.isValid now) with
  | none => return .error .invalidToken
  | some token => do
    match ← AccountProc.findUser token.userId with
    | none => return .error .invalidToken
    | some user => do
      AccountProc.saveUser (user.verifyEmail now)
      Proc.ask (AccountOp.consumeVerificationToken (token.consume now))
      return .ok ()

/-! ## Runs -/

inductive AccountCommand where
  | resetPassword (command : ResetPasswordCommand) (salt : String)
  | verifyEmail (command : VerifyEmailCommand)

inductive AccountResult where
  | reset (result : Except ResetPasswordError Unit)
  | verified (result : Except VerifyEmailError Unit)

/-- The requests of all users, with a clock that may read anything. -/
def accountMachine (crypto : AccountCrypto) :
    Machine AccountCommand Int AccountOp AccountOp.Answer AccountStore AccountResult where
  exec _ := AccountStore.exec crypto
  event nowMs store := { store with nowMs := nowMs }
  program
    | .resetPassword command salt => do
      let result ← ResetPasswordHandler.execute crypto command salt
      return .reset result
    | .verifyEmail command => do
      let result ← VerifyEmailHandler.execute crypto command
      return .verified result

abbrev AccountEvent := Event AccountOp AccountStore
abbrev AccountWorld := World AccountOp AccountStore
abbrev AccountSystem := System AccountCommand AccountOp AccountOp.Answer AccountStore AccountResult
abbrev AccountMoves := List (Move AccountCommand Int)

/-- A run from a store. -/
def accountRun (crypto : AccountCrypto) (store : AccountStore) (moves : AccountMoves) :
    AccountSystem :=
  (accountMachine crypto).run ⟨⟨store, []⟩, []⟩ moves

/-! ## What each handler asks for -/

/-- A save of a password, by the event that it writes. -/
def changesPassword (events : List DomainEvent) : Bool :=
  events.any fun event => event.type = "identity.password_changed"

/-- The operations of a reset: it looks up its token, and saves a changed password. -/
def ResetAsks (tokenHash : String) : AccountOp → Prop
  | .findResetToken asked => asked = tokenHash
  | .saveUser _ events => changesPassword events = true
  | .findVerificationToken _ => False
  | .consumeVerificationToken _ => False
  | .consumeResetToken token => token.consumedAt ≠ none
  | _ => True

/-- The operations of a verification. -/
def VerifyAsks : AccountOp → Prop
  | .saveUser _ events => changesPassword events = false
  | .findResetToken _ => False
  | .consumeResetToken _ => False
  | .hashPassword _ _ => False
  | .revokeAllForUser _ => False
  | _ => True

theorem asks_saveUser {Q : AccountOp → Prop} {changed : User × List DomainEvent}
    (h : Q (.saveUser changed.1 changed.2)) : (AccountProc.saveUser changed).Asks Q := by
  refine ⟨h, fun saved => ?_⟩
  cases (saved : Bool) <;> trivial

theorem asks_resetPassword (crypto : AccountCrypto) (command : ResetPasswordCommand)
    (salt : String) :
    (ResetPasswordHandler.execute crypto command salt).Asks
      (ResetAsks (crypto.tokenHash command.token)) := by
  unfold ResetPasswordHandler.execute
  cases Password.create command.password with
  | error e => trivial
  | ok password =>
    refine ⟨rfl, fun token => ⟨trivial, fun now => ?_⟩⟩
    show Proc.Asks _ (match token.filter (·.isValid now) with | none => _ | some token => _)
    cases Option.filter (·.isValid now) token with
    | none => trivial
    | some token =>
      refine ⟨trivial, fun user => ?_⟩
      cases (user : Option User) with
      | none => trivial
      | some user =>
        refine ⟨trivial, fun passwordHash => ?_⟩
        show Proc.Asks _ (AccountProc.saveUser _ >>= _)
        refine Proc.asks_bind (fun _ => ?_) (asks_saveUser rfl)
        exact ⟨nofun, fun _ => ⟨trivial, fun _ => trivial⟩⟩

theorem asks_verifyEmail (crypto : AccountCrypto) (command : VerifyEmailCommand) :
    (VerifyEmailHandler.execute crypto command).Asks VerifyAsks := by
  refine ⟨trivial, fun token => ⟨trivial, fun now => ?_⟩⟩
  show Proc.Asks _ (match token.filter (·.isValid now) with | none => _ | some token => _)
  cases Option.filter (·.isValid now) token with
  | none => trivial
  | some token =>
    refine ⟨trivial, fun user => ?_⟩
    cases (user : Option User) with
    | none => trivial
    | some user =>
      show Proc.Asks _ (AccountProc.saveUser _ >>= _)
      have hsave : changesPassword (user.verifyEmail now).2 = false := by
        unfold User.verifyEmail
        split_ifs <;> rfl
      refine Proc.asks_bind (fun _ => ?_) (asks_saveUser hsave)
      exact ⟨trivial, fun _ => trivial⟩

/-- What the program of a command asks for. -/
def CommandAsks (crypto : AccountCrypto) : AccountCommand → AccountOp → Prop
  | .resetPassword command _ => ResetAsks (crypto.tokenHash command.token)
  | .verifyEmail _ => VerifyAsks

theorem asks_account (crypto : AccountCrypto) (command : AccountCommand) :
    ((accountMachine crypto).program command).Asks (CommandAsks crypto command) := by
  cases command with
  | resetPassword command salt =>
    show Proc.Asks _ (ResetPasswordHandler.execute _ _ _ >>= _)
    refine Proc.asks_bind (fun _ => ?_) (asks_resetPassword crypto command salt)
    trivial
  | verifyEmail command =>
    show Proc.Asks _ (VerifyEmailHandler.execute _ _ >>= _)
    refine Proc.asks_bind (fun _ => ?_) (asks_verifyEmail crypto command)
    trivial

end AccessCore
