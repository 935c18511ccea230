/-
  Registration and requests for a password reset (`identity/application/register-user.ts`,
  `request-password-reset.ts`), beside the verifications and resets of `Identity.Passwords`: all
  four handlers over the tables of users and tokens, and the mails that carry the tokens.

  A token leaves the system in a mail only.  What is stored is its hash; who has the mail can
  present the token.

  1. The tables: `saveToken` inserts, and the id and the hash of a token are unique.
  2. The handlers.  The ids, the texts and the salts they draw are arguments of their programs.
  3. The machine of all calls, and what each command asks for.
-/
import AccessCore.Identity.Passwords
import AccessCore.Authn.SessionHandlers

namespace AccessCore

open Interleave

/-! ## Users and tokens -/

/-- `User.register`, and the event it adds. -/
def User.register (id : UserId) (email passwordHash : String) (now : Int) :
    User × List DomainEvent :=
  (⟨id, email, passwordHash, .pendingVerification, none, now, now⟩,
    [⟨"identity.user_registered", now, id.value, [("email", email)]⟩])

@[simp] theorem User.verifyEmail_email (user : User) (now : Int) :
    (user.verifyEmail now).1.email = user.email := by
  unfold User.verifyEmail
  split_ifs <;> rfl

/-- `issue` of both kinds of token. -/
def MailedToken.issue (id : String) (userId : UserId) (tokenHash : String) (now ttlMinutes : Int) :
    MailedToken :=
  ⟨id, userId, tokenHash, now + ttlMinutes * 60000, none, now⟩

inductive MailKind where
  | verification
  | passwordReset
deriving DecidableEq, Repr

/-- What the `Mailer` is told to send: `sendEmailVerification`, `sendPasswordReset`. -/
structure Mail where
  kind : MailKind
  email : String
  token : String
deriving DecidableEq, Repr

structure RegistrationStore where
  account : AccountStore
  mails : List Mail

namespace RegistrationStore

abbrev users (store : RegistrationStore) : Table User UserId (·.id) := store.account.users

/-- The table of a kind of token. -/
def tokens (store : RegistrationStore) : MailKind → Table MailedToken String (·.id)
  | .verification => store.account.verificationTokens
  | .passwordReset => store.account.passwordResetTokens

def setTokens (store : RegistrationStore) (kind : MailKind)
    (tokens : Table MailedToken String (·.id)) : RegistrationStore :=
  match kind with
  | .verification => { store with account := { store.account with verificationTokens := tokens } }
  | .passwordReset => { store with account := { store.account with passwordResetTokens := tokens } }

/-- A row with the token's id or hash, or no row of its user. -/
def refusesToken (store : RegistrationStore) (kind : MailKind) (token : MailedToken) : Bool :=
  (store.users.get token.userId).isNone || ((store.tokens kind).get token.id).isSome ||
    (findByHash (store.tokens kind) token.tokenHash).isSome

/-- `save` of both token repositories; `false` when a constraint of the table refuses the row. -/
def saveToken (store : RegistrationStore) (kind : MailKind) (token : MailedToken) :
    RegistrationStore × Bool :=
  if store.refusesToken kind token then (store, false)
  else (store.setTokens kind ((store.tokens kind).overwrite token), true)

@[simp] theorem users_setTokens (store : RegistrationStore) (kind : MailKind)
    (tokens : Table MailedToken String (·.id)) :
    (store.setTokens kind tokens).users = store.users := by
  cases kind <;> rfl

@[simp] theorem mails_setTokens (store : RegistrationStore) (kind : MailKind)
    (tokens : Table MailedToken String (·.id)) :
    (store.setTokens kind tokens).mails = store.mails := by
  cases kind <;> rfl

@[simp] theorem outbox_setTokens (store : RegistrationStore) (kind : MailKind)
    (tokens : Table MailedToken String (·.id)) :
    (store.setTokens kind tokens).account.outbox = store.account.outbox := by
  cases kind <;> rfl

theorem tokens_setTokens (store : RegistrationStore) (kind kind' : MailKind)
    (tokens : Table MailedToken String (·.id)) :
    (store.setTokens kind tokens).tokens kind' =
      if kind' = kind then tokens else store.tokens kind' := by
  cases kind <;> cases kind' <;> rfl

/-- Either nothing happens, or the row is new in its id and its hash, and of a user in the table. -/
theorem saveToken_cases (store : RegistrationStore) (kind : MailKind) (token : MailedToken) :
    store.saveToken kind token = (store, false) ∨
      (store.saveToken kind token =
          (store.setTokens kind ((store.tokens kind).overwrite token), true) ∧
        (∃ user, store.users.get token.userId = some user) ∧
        (store.tokens kind).get token.id = none ∧
        findByHash (store.tokens kind) token.tokenHash = none) := by
  unfold saveToken
  split_ifs with h
  · exact Or.inl rfl
  · refine Or.inr ⟨rfl, ?_⟩
    simpa [refusesToken, Option.ne_none_iff_exists', and_assoc] using h

end RegistrationStore

/-! ## Operations -/

inductive RegistrationOp where
  | account (op : AccountOp)
  | findByEmail (email : String)
  | dummyVerify (password : String)
  | saveToken (kind : MailKind) (token : MailedToken)
  | send (mail : Mail)
deriving DecidableEq

def RegistrationOp.Answer : RegistrationOp → Type
  | account op => op.Answer
  | findByEmail _ => Option User
  | dummyVerify _ => Unit
  | saveToken _ _ => Bool
  | send _ => Unit

def RegistrationStore.exec (crypto : AccountCrypto) :
    (op : RegistrationOp) → RegistrationStore → RegistrationStore × op.Answer
  | .account op, store =>
    let (account, answer) := store.account.exec crypto op
    ({ store with account := account }, answer)
  | .findByEmail email, store => (store, store.users.rows.find? (·.email = email))
  | .dummyVerify _, store => (store, ())
  | .saveToken kind token, store => store.saveToken kind token
  | .send mail, store => ({ store with mails := store.mails ++ [mail] }, ())

abbrev RegistrationProc (α : Type) := Proc RegistrationOp RegistrationOp.Answer α

namespace RegistrationProc

/-- A program of the accounts. -/
def ofAccount {α : Type} (p : AccountProc α) : RegistrationProc α :=
  p.via RegistrationOp.account fun _ answer => answer

theorem ofAccount_bind {α β : Type} (p : AccountProc α) (f : α → AccountProc β) :
    ofAccount (p >>= f) = ofAccount p >>= fun a => ofAccount (f a) := Proc.via_bind f p

def findByEmail (email : String) : RegistrationProc (Option User) :=
  .ask (RegistrationOp.findByEmail email)

/-- `save` of a token repository. -/
def saveToken (kind : MailKind) (token : MailedToken) : RegistrationProc Unit := do
  let saved : Bool ← .ask (RegistrationOp.saveToken kind token)
  if saved then return ()
  else .thrown "insert or update on a table of tokens violates a constraint"

end RegistrationProc

/-! ## The handlers -/

/-- What is drawn for a token: its id, and the text that is sent. -/
structure TokenDraws where
  id : String
  raw : String
deriving DecidableEq, Repr

/-- The end of both handlers: a token is generated, stored as its hash, and sent. -/
def RegistrationProc.mailToken (crypto : AccountCrypto) (kind : MailKind) (userId : UserId)
    (email : String) (now ttlMinutes : Int) (draws : TokenDraws) : RegistrationProc Unit := do
  RegistrationProc.saveToken kind
    (.issue draws.id userId (crypto.tokenHash draws.raw) now ttlMinutes)
  Proc.ask (RegistrationOp.send ⟨kind, email, draws.raw⟩)

structure RegisterUserCommand where
  email : String
  password : String
deriving DecidableEq, Repr

inductive RegisterUserError where
  | invalidEmail
  | invalidPassword
deriving DecidableEq, Repr

/-- What a registration draws. -/
structure RegisterDraws where
  userId : UserId
  salt : String
  token : TokenDraws
deriving DecidableEq, Repr

def verificationTokenTtlMinutes : Int := 60

/-- `RegisterUserHandler.execute`. -/
def RegisterUserHandler.execute (settings : AuthnSettings) (crypto : AccountCrypto)
    (command : RegisterUserCommand) (draws : RegisterDraws) :
    RegistrationProc (Except RegisterUserError Unit) :=
  match Email.create settings command.email with
  | none => return .error .invalidEmail
  | some email =>
    match Password.create command.password with
    | .error _ => return .error .invalidPassword
    | .ok password => do
      match ← RegistrationProc.findByEmail email with
      | some _ => do
        Proc.ask (RegistrationOp.dummyVerify password)
        return .ok ()
      | none => do
        let passwordHash : String ← .ask (RegistrationOp.account
          (.hashPassword password draws.salt))
        let now ← RegistrationProc.ofAccount AccountProc.now
        RegistrationProc.ofAccount
          (AccountProc.saveUser (User.register draws.userId email passwordHash now))
        RegistrationProc.mailToken crypto .verification draws.userId email now
          verificationTokenTtlMinutes draws.token
        return .ok ()

structure RequestPasswordResetCommand where
  email : String
deriving DecidableEq, Repr

def passwordResetTtlMinutes : Int := 15

/-- `RequestPasswordResetHandler.execute`. -/
def RequestPasswordResetHandler.execute (settings : AuthnSettings) (crypto : AccountCrypto)
    (command : RequestPasswordResetCommand) (draws : TokenDraws) : RegistrationProc Unit :=
  match Email.create settings command.email with
  | none => return ()
  | some email => do
    match (← RegistrationProc.findByEmail email).filter (·.status = .active) with
    | none => return ()
    | some user => do
      let now ← RegistrationProc.ofAccount AccountProc.now
      RegistrationProc.mailToken crypto .passwordReset user.id email now passwordResetTtlMinutes
        draws

/-! ## Runs -/

inductive RegistrationCommand where
  | register (command : RegisterUserCommand) (draws : RegisterDraws)
  | requestReset (command : RequestPasswordResetCommand) (draws : TokenDraws)
  | account (command : AccountCommand)

inductive RegistrationResult where
  | registered (result : Except RegisterUserError Unit)
  | requested
  | account (result : AccountResult)

/-- The requests of all users, with a clock that may read anything. -/
def registrationMachine (settings : AuthnSettings) (crypto : AccountCrypto) :
    Machine RegistrationCommand Int RegistrationOp RegistrationOp.Answer RegistrationStore
      RegistrationResult where
  exec _ := RegistrationStore.exec crypto
  event nowMs store := { store with account := { store.account with nowMs := nowMs } }
  program
    | .register command draws => do
      let result ← RegisterUserHandler.execute settings crypto command draws
      return .registered result
    | .requestReset command draws => do
      RequestPasswordResetHandler.execute settings crypto command draws
      return .requested
    | .account command => do
      let result ← RegistrationProc.ofAccount ((accountMachine crypto).program command)
      return .account result

abbrev RegistrationEvent := Event RegistrationOp RegistrationStore
abbrev RegistrationWorld := World RegistrationOp RegistrationStore
abbrev RegistrationSystem :=
  System RegistrationCommand RegistrationOp RegistrationOp.Answer RegistrationStore
    RegistrationResult
abbrev RegistrationMoves := List (Move RegistrationCommand Int)

/-- No user, no token, and no mail sent. -/
def RegistrationStore.empty : RegistrationStore :=
  ⟨⟨Table.empty, [], Table.empty, Table.empty, [], 0⟩, []⟩

/-- A run from a store. -/
def registrationRun (settings : AuthnSettings) (crypto : AccountCrypto) (store : RegistrationStore)
    (moves : RegistrationMoves) : RegistrationSystem :=
  (registrationMachine settings crypto).run ⟨⟨store, []⟩, []⟩ moves

/-- A save of a new user, by the event that it writes. -/
def registers (events : List DomainEvent) : Bool :=
  events.any fun event => event.type = "identity.user_registered"

/-- A registration that saves its user meets no row with the id it has drawn. -/
def DrawsFresh (op : RegistrationOp) (w : RegistrationWorld) : Prop :=
  match op with
  | .account (.saveUser user events) =>
    registers events = true → w.state.users.get user.id = none
  | _ => True

instance DrawsFresh.decidable (op : RegistrationOp) (w : RegistrationWorld) :
    Decidable (DrawsFresh op w) := by
  unfold DrawsFresh
  induction op using RegistrationOp.casesOn with
  | account op => induction op using AccountOp.casesOn <;> infer_instance
  | findByEmail email => exact .isTrue trivial
  | dummyVerify password => exact .isTrue trivial
  | saveToken kind token => exact .isTrue trivial
  | send mail => exact .isTrue trivial

/-- Runs whose user ids do not collide (`randomUUID`). -/
def freshUserIds : Conduct RegistrationCommand Int RegistrationOp RegistrationStore where
  start _ _ := True
  ask _ := DrawsFresh
  event _ _ := True

instance freshUserIds.decidable (settings : AuthnSettings) (crypto : AccountCrypto)
    (sys : RegistrationSystem) (moves : RegistrationMoves) :
    Decidable ((registrationMachine settings crypto).Along freshUserIds sys moves) :=
  have : ∀ c w, Decidable (freshUserIds.start c w) := fun _ _ => .isTrue trivial
  have : ∀ i op w, Decidable (freshUserIds.ask i op w) := fun _ op w =>
    inferInstanceAs (Decidable (DrawsFresh op w))
  have : ∀ e w, Decidable (freshUserIds.event e w) := fun _ _ => .isTrue trivial
  Machine.Along.decidable (registrationMachine settings crypto) freshUserIds sys moves

/-! ## What each command asks for -/

section Asks

variable (settings : AuthnSettings) (crypto : AccountCrypto)

/-- The operations of a registration. -/
def RegisterAsks (command : RegisterUserCommand) (draws : RegisterDraws) : RegistrationOp → Prop
  | .account (.saveUser user events) =>
    registers events = true ∧ Email.create settings command.email = some user.email
  | .account (.hashPassword password salt) => password = command.password ∧ salt = draws.salt
  | .account .now => True
  | .account _ => False
  | .findByEmail email => Email.create settings command.email = some email
  | .dummyVerify password => password = command.password
  | .saveToken kind token =>
    kind = .verification ∧ token.tokenHash = crypto.tokenHash draws.token.raw
  | .send mail => mail.kind = .verification ∧ mail.token = draws.token.raw ∧
      Email.create settings command.email = some mail.email

/-- The operations of a request for a reset. -/
def RequestAsks (command : RequestPasswordResetCommand) (draws : TokenDraws) :
    RegistrationOp → Prop
  | .account op => op = .now
  | .findByEmail email => Email.create settings command.email = some email
  | .dummyVerify _ => False
  | .saveToken kind token => kind = .passwordReset ∧ token.tokenHash = crypto.tokenHash draws.raw
  | .send mail => mail.kind = .passwordReset ∧ mail.token = draws.raw ∧
      Email.create settings command.email = some mail.email

/-- The operations of a call that presents a token. -/
def PresentAsks : AccountCommand → AccountOp → Prop
  | _, .saveUser _ events => registers events = false
  | .resetPassword command salt, .hashPassword password salt' =>
    password = command.password ∧ salt' = salt
  | .resetPassword command _, .findResetToken tokenHash =>
    tokenHash = crypto.tokenHash command.token
  | .resetPassword _ _, .findVerificationToken _ => False
  | .verifyEmail command, .findVerificationToken tokenHash =>
    tokenHash = crypto.tokenHash command.token
  | .verifyEmail _, .findResetToken _ => False
  | .verifyEmail _, .hashPassword _ _ => False
  | _, _ => True

/-- What the program of a command asks for. -/
def RegistrationAsks : RegistrationCommand → RegistrationOp → Prop
  | .register command draws, op => RegisterAsks settings crypto command draws op
  | .requestReset command draws, op => RequestAsks settings crypto command draws op
  | .account command, .account op => PresentAsks crypto command op
  | .account _, _ => False

theorem Password.eq_of_create {input password : String} (h : Password.create input = .ok password) :
    password = input := by
  unfold Password.create at h
  split_ifs at h
  exact (Except.ok.inj h).symm

variable {settings crypto}

theorem asks_mailToken {Q : RegistrationOp → Prop} {kind : MailKind} {userId : UserId}
    {email : String} {now ttlMinutes : Int} {draws : TokenDraws}
    (hsave : Q (.saveToken kind
      (.issue draws.id userId (crypto.tokenHash draws.raw) now ttlMinutes)))
    (hsend : Q (.send ⟨kind, email, draws.raw⟩)) :
    (RegistrationProc.mailToken crypto kind userId email now ttlMinutes draws).Asks Q := by
  refine ⟨hsave, fun saved => ?_⟩
  cases (saved : Bool) with
  | false => trivial
  | true => exact ⟨hsend, fun _ => trivial⟩

theorem asks_register (command : RegisterUserCommand) (draws : RegisterDraws) :
    (RegisterUserHandler.execute settings crypto command draws).Asks
      (RegisterAsks settings crypto command draws) := by
  unfold RegisterUserHandler.execute
  cases hemail : Email.create settings command.email with
  | none => trivial
  | some email =>
    cases hpassword : Password.create command.password with
    | error e => trivial
    | ok password =>
      have hsame := Password.eq_of_create hpassword
      refine ⟨hemail, fun existing => ?_⟩
      cases (existing : Option User) with
      | some user => exact ⟨hsame, fun _ => trivial⟩
      | none =>
        refine ⟨⟨hsame, rfl⟩, fun passwordHash => ⟨trivial, fun now => ?_⟩⟩
        refine ⟨⟨rfl, hemail⟩, fun saved => ?_⟩
        cases (saved : Bool) with
        | false => trivial
        | true =>
          show Proc.Asks _ (RegistrationProc.mailToken crypto _ _ _ _ _ _ >>= _)
          refine Proc.asks_bind (fun _ => ?_) (asks_mailToken ⟨rfl, rfl⟩ ⟨rfl, rfl, hemail⟩)
          trivial

theorem asks_requestReset (command : RequestPasswordResetCommand) (draws : TokenDraws) :
    (RequestPasswordResetHandler.execute settings crypto command draws).Asks
      (RequestAsks settings crypto command draws) := by
  unfold RequestPasswordResetHandler.execute
  cases hemail : Email.create settings command.email with
  | none => trivial
  | some email =>
    refine ⟨hemail, fun found => ?_⟩
    dsimp only [Proc.bind]
    cases Option.filter (fun user : User => user.status = .active) found with
    | none => trivial
    | some user => exact ⟨rfl, fun now => asks_mailToken ⟨rfl, rfl⟩ ⟨rfl, rfl, hemail⟩⟩

theorem presents_reset (command : ResetPasswordCommand) (salt : String) :
    (ResetPasswordHandler.execute crypto command salt).Asks
      (PresentAsks crypto (.resetPassword command salt)) := by
  unfold ResetPasswordHandler.execute
  cases hpassword : Password.create command.password with
  | error e => trivial
  | ok password =>
    have hsame := Password.eq_of_create hpassword
    refine ⟨rfl, fun token => ⟨trivial, fun now => ?_⟩⟩
    dsimp only [Proc.bind]
    cases Option.filter (fun token : MailedToken => token.isValid now) token with
    | none => trivial
    | some token =>
      refine ⟨trivial, fun user => ?_⟩
      cases (user : Option User) with
      | none => trivial
      | some user =>
        refine ⟨⟨hsame, rfl⟩, fun passwordHash => ?_⟩
        show Proc.Asks _ (AccountProc.saveUser _ >>= _)
        refine Proc.asks_bind (fun _ => ?_) (asks_saveUser rfl)
        exact ⟨trivial, fun _ => ⟨trivial, fun _ => trivial⟩⟩

theorem registers_verifyEmail (user : User) (now : Int) :
    registers (user.verifyEmail now).2 = false := by
  unfold User.verifyEmail
  split_ifs <;> rfl

theorem presents_verify (command : VerifyEmailCommand) :
    (VerifyEmailHandler.execute crypto command).Asks
      (PresentAsks crypto (.verifyEmail command)) := by
  refine ⟨rfl, fun token => ⟨trivial, fun now => ?_⟩⟩
  dsimp only [Proc.bind]
  cases Option.filter (fun token : MailedToken => token.isValid now) token with
  | none => trivial
  | some token =>
    refine ⟨trivial, fun user => ?_⟩
    cases (user : Option User) with
    | none => trivial
    | some user =>
      show Proc.Asks _ (AccountProc.saveUser _ >>= _)
      refine Proc.asks_bind (fun _ => ?_) (asks_saveUser (registers_verifyEmail user now))
      exact ⟨trivial, fun _ => trivial⟩

theorem presents_account (command : AccountCommand) :
    ((accountMachine crypto).program command).Asks (PresentAsks crypto command) := by
  cases command with
  | resetPassword command salt =>
    show Proc.Asks _ (ResetPasswordHandler.execute _ _ _ >>= _)
    refine Proc.asks_bind (fun _ => ?_) (presents_reset command salt)
    trivial
  | verifyEmail command =>
    show Proc.Asks _ (VerifyEmailHandler.execute _ _ >>= _)
    refine Proc.asks_bind (fun _ => ?_) (presents_verify command)
    trivial

theorem asks_registration (command : RegistrationCommand) :
    ((registrationMachine settings crypto).program command).Asks
      (RegistrationAsks settings crypto command) := by
  cases command with
  | register command draws =>
    show Proc.Asks _ (RegisterUserHandler.execute _ _ _ _ >>= _)
    refine Proc.asks_bind (fun _ => ?_) (asks_register command draws)
    trivial
  | requestReset command draws =>
    show Proc.Asks _ (RequestPasswordResetHandler.execute _ _ _ _ >>= _)
    refine Proc.asks_bind (fun _ => ?_) (asks_requestReset command draws)
    trivial
  | account command =>
    show Proc.Asks _ (RegistrationProc.ofAccount _ >>= _)
    have hvia : (RegistrationProc.ofAccount ((accountMachine crypto).program command)).Asks
        (RegistrationAsks settings crypto (.account command)) := by
      refine Proc.asks_via (fun op hop => ?_) (presents_account command)
      exact hop
    refine Proc.asks_bind (fun _ => ?_) hvia
    trivial

end Asks

end AccessCore
