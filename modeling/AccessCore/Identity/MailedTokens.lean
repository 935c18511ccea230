/-
  What a mailed token is good for, from the registration that sends it to its last use.

  The requests of one user follow one another here; `Identity.AccountProvenance` is about what
  others may do meanwhile.  A registration of a free address stores a pending user and mails a text
  (`register_stores`).  Presented within the hour, the text makes the user active
  (`verifyEmail_stores`), and it is refused ever after; presented later, it is refused and nothing
  changes (`verifyEmail_refuses`).  `mailed_token_opens_once` puts the three together.
-/
import AccessCore.Identity.AccountOwnership

namespace AccessCore

/-! ## Requests, one at a time -/

namespace RegistrationStore

/-- The store with the clock at another time. -/
def atTime (store : RegistrationStore) (nowMs : Int) : RegistrationStore :=
  { store with account := { store.account with nowMs := nowMs } }

/-- A registration, alone. -/
def register (settings : AuthnSettings) (crypto : AccountCrypto) (command : RegisterUserCommand)
    (draws : RegisterDraws) (store : RegistrationStore) :
    RegistrationStore × Except String (Except RegisterUserError Unit) :=
  (RegisterUserHandler.execute settings crypto command draws).eval (exec crypto) store

/-- A verification, alone. -/
def verifyEmail (crypto : AccountCrypto) (token : String) (store : RegistrationStore) :
    RegistrationStore × Except String (Except VerifyEmailError Unit) :=
  (RegistrationProc.ofAccount (VerifyEmailHandler.execute crypto ⟨token⟩)).eval (exec crypto) store

/-- The row of a changed user, and its events. -/
def saved (store : RegistrationStore) (changed : User × List DomainEvent) : RegistrationStore :=
  { store with account := { store.account with
    users := store.users.upsert AccountStore.mergeUser AccountStore.mergeUser_keeps changed.1
    outbox := store.account.outbox ++ changed.2 } }

/-- The row of a token, and its mail. -/
def mailed (store : RegistrationStore) (kind : MailKind) (token : MailedToken)
    (email raw : String) :
    RegistrationStore :=
  { store.setTokens kind ((store.tokens kind).overwrite token) with
    mails := store.mails ++ [⟨kind, email, raw⟩] }

/-- The token marked. -/
def marked (store : RegistrationStore) (token : MailedToken) : RegistrationStore :=
  { store with account := { store.account with
    verificationTokens := consumeToken store.account.verificationTokens token } }

/-- The row of a user that has been saved. -/
theorem get_saved (store : RegistrationStore) {changed : User × List DomainEvent}
    (userId : UserId) (hid : userId = changed.1.id) : (store.saved changed).users.get userId =
      some (((store.users.get userId).map (AccountStore.mergeUser · changed.1)).getD changed.1) :=
  (Table.get_upsert AccountStore.mergeUser_keeps userId).trans (if_pos hid)

end RegistrationStore

section Flow

variable {settings : AuthnSettings} {crypto : AccountCrypto} {store : RegistrationStore}

/-- A program of the accounts, operation by operation. -/
theorem eval_ofAccount_bind {α β : Type} (p : AccountProc α) (f : α → AccountProc β) :
    (RegistrationProc.ofAccount (p >>= f)).eval (RegistrationStore.exec crypto) store =
      (RegistrationProc.ofAccount p >>= fun a => RegistrationProc.ofAccount (f a)).eval
        (RegistrationStore.exec crypto) store := by
  rw [RegistrationProc.ofAccount_bind]

/-- The time of day, in front of what follows. -/
theorem eval_now {β : Type} (next : Int → RegistrationProc β) :
    (RegistrationProc.ofAccount AccountProc.now >>= next).eval
      (RegistrationStore.exec crypto) store =
      (next store.account.nowMs).eval (RegistrationStore.exec crypto) store := rfl

theorem eval_findToken {β : Type} {tokenHash : String} {found : Option EmailVerificationToken}
    (hfound : findByHash (store.tokens .verification) tokenHash = found)
    (next : Option EmailVerificationToken → RegistrationProc β) :
    (RegistrationProc.ofAccount (.ask (AccountOp.findVerificationToken tokenHash)) >>= next).eval
        (RegistrationStore.exec crypto) store =
      (next found).eval (RegistrationStore.exec crypto) store := by
  rw [← hfound]
  rfl

theorem eval_findUser {β : Type} {userId : UserId} {found : Option User}
    (hfound : store.users.get userId = found) (next : Option User → RegistrationProc β) :
    (RegistrationProc.ofAccount (AccountProc.findUser userId) >>= next).eval
        (RegistrationStore.exec crypto) store =
      (next found).eval (RegistrationStore.exec crypto) store := by
  rw [← hfound]
  rfl

theorem eval_findByEmail {β : Type} {email : String} {found : Option User}
    (hfound : store.users.rows.find? (·.email = email) = found)
    (next : Option User → RegistrationProc β) :
    (RegistrationProc.findByEmail email >>= next).eval (RegistrationStore.exec crypto) store =
      (next found).eval (RegistrationStore.exec crypto) store := by
  rw [← hfound]
  rfl

/-- A save that no address is in the way of. -/
theorem eval_saveUser {β : Type} {changed : User × List DomainEvent}
    (hfree : store.users.get changed.1.id = none →
      ∀ row ∈ store.users.rows, row.email ≠ changed.1.email)
    (next : Unit → RegistrationProc β) :
    (RegistrationProc.ofAccount (AccountProc.saveUser changed) >>= next).eval
        (RegistrationStore.exec crypto) store =
      (next ()).eval (RegistrationStore.exec crypto) (store.saved changed) := by
  have hsave : store.account.saveUser changed.1 changed.2 =
      ((store.saved changed).account, true) := by
    unfold AccountStore.saveUser
    refine if_neg fun h => ?_
    obtain ⟨hnone, htaken⟩ := Bool.and_eq_true_iff.mp h
    obtain ⟨row, hrow, hemail⟩ := List.any_eq_true.mp htaken
    exact hfree (Option.isNone_iff_eq_none.mp hnone) row hrow (of_decide_eq_true hemail)
  show (RegistrationProc.ofAccount
      (if (store.account.saveUser changed.1 changed.2).2 = true then .done ()
        else .thrown "duplicate key value violates unique constraint \"users_email_unique\"") >>=
        next).eval (RegistrationStore.exec crypto)
      { store with account := (store.account.saveUser changed.1 changed.2).1 } = _
  rw [hsave]
  rfl

/-- A token that the table takes, in front of what follows. -/
theorem eval_mailToken {β : Type} {kind : MailKind} {userId : UserId} {email : String}
    {now ttlMinutes : Int} {draws : TokenDraws} {token : MailedToken}
    (htoken : MailedToken.issue draws.id userId (crypto.tokenHash draws.raw) now ttlMinutes = token)
    (htakes : store.refusesToken kind token = false) (next : Unit → RegistrationProc β) :
    (RegistrationProc.mailToken crypto kind userId email now ttlMinutes draws >>= next).eval
        (RegistrationStore.exec crypto) store =
      (next ()).eval (RegistrationStore.exec crypto) (store.mailed kind token email draws.raw) := by
  have hsave : store.saveToken kind token =
      (store.setTokens kind ((store.tokens kind).overwrite token), true) := by
    unfold RegistrationStore.saveToken
    rw [htakes]
    rfl
  unfold RegistrationProc.mailToken
  rw [htoken]
  show (((if (store.saveToken kind token).2 = true then .done () else
      .thrown "insert or update on a table of tokens violates a constraint" :
        RegistrationProc Unit) >>= fun _ =>
      Proc.ask (RegistrationOp.send ⟨kind, email, draws.raw⟩)) >>= next).eval
      (RegistrationStore.exec crypto) (store.saveToken kind token).1 = _
  rw [hsave]
  cases kind <;> rfl

/-! ## Registration -/

/-- The address, the user id and the token of a registration are not taken. -/
structure Free (crypto : AccountCrypto) (store : RegistrationStore) (draws : RegisterDraws)
    (email : String) : Prop where
  email : ∀ row ∈ store.users.rows, row.email ≠ email
  userId : store.users.get draws.userId = none
  tokenId : (store.tokens .verification).get draws.token.id = none
  hash : findByHash (store.tokens .verification) (crypto.tokenHash draws.token.raw) = none

/-- The token of a registration. -/
def verificationToken (crypto : AccountCrypto) (draws : RegisterDraws) (nowMs : Int) :
    MailedToken :=
  .issue draws.token.id draws.userId (crypto.tokenHash draws.token.raw) nowMs
    verificationTokenTtlMinutes

/-- The user of a registration, and its event. -/
def newUser (crypto : AccountCrypto) (draws : RegisterDraws) (email password : String)
    (nowMs : Int) : User × List DomainEvent :=
  User.register draws.userId email (crypto.passwordHash password draws.salt) nowMs

/-- What a registration leaves. -/
def registered (crypto : AccountCrypto) (draws : RegisterDraws) (email password : String)
    (store : RegistrationStore) : RegistrationStore :=
  (store.saved (newUser crypto draws email password store.account.nowMs)).mailed .verification
    (verificationToken crypto draws store.account.nowMs) email draws.token.raw

/-- A free address is registered. -/
theorem register_stores {command : RegisterUserCommand} {draws : RegisterDraws}
    {email password : String} (hemail : Email.create settings command.email = some email)
    (hpassword : Password.create command.password = .ok password)
    (hfree : Free crypto store draws email) :
    store.register settings crypto command draws =
      (registered crypto draws email password store, .ok (.ok ())) := by
  have hnone : store.users.rows.find? (·.email = email) = none :=
    List.find?_eq_none.mpr fun row hrow => by simpa using hfree.email row hrow
  have htakes : (store.saved (newUser crypto draws email password store.account.nowMs)).refusesToken
      .verification (verificationToken crypto draws store.account.nowMs) = false := by
    show (((store.saved (newUser crypto draws email password store.account.nowMs)).users.get
        draws.userId).isNone ||
      ((store.tokens .verification).get draws.token.id).isSome ||
      (findByHash (store.tokens .verification) (crypto.tokenHash draws.token.raw)).isSome) = false
    rw [store.get_saved draws.userId rfl, hfree.tokenId, hfree.hash]
    rfl
  unfold RegistrationStore.register RegisterUserHandler.execute
  rw [hemail, hpassword]
  refine (eval_findByEmail hnone _).trans ?_
  -- the hash and the time of day are read
  refine (eval_saveUser (fun _ => hfree.email) _).trans ?_
  exact eval_mailToken rfl htakes _

/-! ## Verification -/

/-- A text without a valid token: nothing changes. -/
theorem verifyEmail_refuses {text : String} {found : Option EmailVerificationToken}
    (hfound : findByHash (store.tokens .verification) (crypto.tokenHash text) = found)
    (hinvalid : found.filter (·.isValid store.account.nowMs) = none) :
    store.verifyEmail crypto text = (store, .ok (.error .invalidToken)) := by
  unfold RegistrationStore.verifyEmail VerifyEmailHandler.execute
  dsimp only
  refine (eval_ofAccount_bind _ _).trans ((eval_findToken hfound _).trans ?_)
  refine (eval_ofAccount_bind _ _).trans ((eval_now _).trans ?_)
  rw [hinvalid]
  rfl

/-- A valid token of a user: the user is active, and the token is marked. -/
theorem verifyEmail_stores {text : String} {token : MailedToken} {user : User}
    (htoken : findByHash (store.tokens .verification) (crypto.tokenHash text) = some token)
    (hvalid : token.isValid store.account.nowMs = true)
    (huser : store.users.get token.userId = some user) :
    store.verifyEmail crypto text =
      ((store.saved (user.verifyEmail store.account.nowMs)).marked
        (token.consume store.account.nowMs), .ok (.ok ())) := by
  have hfiltered : (some token).filter (·.isValid store.account.nowMs) = some token := by
    rw [Option.filter_some, if_pos hvalid]
  have hknown : store.users.get (user.verifyEmail store.account.nowMs).1.id ≠ none := by
    rw [User.verifyEmail_id, (Table.mem_of_get huser).2, huser]
    exact Option.some_ne_none user
  unfold RegistrationStore.verifyEmail VerifyEmailHandler.execute
  dsimp only
  refine (eval_ofAccount_bind _ _).trans ((eval_findToken htoken _).trans ?_)
  refine (eval_ofAccount_bind _ _).trans ((eval_now _).trans ?_)
  rw [hfiltered]
  refine (eval_ofAccount_bind _ _).trans ((eval_findUser huser _).trans ?_)
  exact (eval_ofAccount_bind _ _).trans (eval_saveUser (fun hnone => absurd hnone hknown) _)

/-! ## From the mail to the last use -/

/-- The hour of a token. -/
theorem isValid_verificationToken {draws : RegisterDraws} {nowMs later : Int} :
    (verificationToken crypto draws nowMs).isValid later = true ↔ later < nowMs + 3600000 := by
  rw [MailedToken.isValid_iff]
  show (none : Option Int) = none ∧ later < nowMs + 60 * 60000 ↔ _
  exact ⟨fun h => h.2, fun h => ⟨rfl, h⟩⟩

/-- What a registration leaves of its token. -/
theorem findByHash_registered {draws : RegisterDraws} {email : String} (password : String)
    (hfree : Free crypto store draws email) :
    findByHash ((registered crypto draws email password store).tokens .verification)
        (crypto.tokenHash draws.token.raw) =
      some (verificationToken crypto draws store.account.nowMs) := by
  have hrows : ((store.tokens .verification).overwrite
      (verificationToken crypto draws store.account.nowMs)).rows =
      (store.tokens .verification).rows ++
        [verificationToken crypto draws store.account.nowMs] :=
    Table.rows_upsert_of_get_none _ hfree.tokenId
  show List.find? _ ((store.tokens .verification).overwrite
    (verificationToken crypto draws store.account.nowMs)).rows = _
  rw [hrows, List.find?_append, show List.find? _ (store.tokens .verification).rows = none from
    hfree.hash]
  simp [verificationToken, MailedToken.issue]

/-- And of its user. -/
theorem get_registered {draws : RegisterDraws} {email password : String}
    (hfree : Free crypto store draws email) :
    (registered crypto draws email password store).users.get draws.userId =
      some (newUser crypto draws email password store.account.nowMs).1 := by
  refine (store.get_saved draws.userId rfl).trans ?_
  rw [hfree.userId]
  rfl

/-- A marked token is refused at any time. -/
theorem findByHash_marked {text : String} {token : MailedToken} {nowMs : Int}
    (htoken : findByHash (store.tokens .verification) (crypto.tokenHash text) = some token) :
    findByHash ((store.marked (token.consume nowMs)).tokens .verification)
        (crypto.tokenHash text) = some (token.consume nowMs) := by
  show findByHash (consumeToken (store.tokens .verification) (token.consume nowMs)) _ = _
  rw [findByHash_consumeToken, htoken, Option.map_some]
  exact congrArg some (if_pos rfl)

end Flow

/-- The text that a registration mails makes the user active if it is presented within the hour, and
    from then on it is refused; presented later, it is refused, and nothing changes. -/
theorem mailed_token_opens_once (settings : AuthnSettings) (crypto : AccountCrypto)
    (store : RegistrationStore) (command : RegisterUserCommand) (draws : RegisterDraws)
    (email password : String) (hemail : Email.create settings command.email = some email)
    (hpassword : Password.create command.password = .ok password)
    (hfree : Free crypto store draws email) :
    ∃ opened : RegistrationStore,
      store.register settings crypto command draws = (opened, .ok (.ok ())) ∧
      opened.mails = store.mails ++ [⟨.verification, email, draws.token.raw⟩] ∧
      (∀ later, store.account.nowMs + 3600000 ≤ later →
        (opened.atTime later).verifyEmail crypto draws.token.raw =
          (opened.atTime later, .ok (.error .invalidToken))) ∧
      ∀ later, later < store.account.nowMs + 3600000 → ∃ verified : RegistrationStore,
        (opened.atTime later).verifyEmail crypto draws.token.raw = (verified, .ok (.ok ())) ∧
        (∃ user, verified.users.get draws.userId = some user ∧ user.email = email ∧
          user.passwordHash = crypto.passwordHash password draws.salt ∧
          user.status = .active ∧ user.emailVerifiedAt = some later) ∧
        ∀ again, (verified.atTime again).verifyEmail crypto draws.token.raw =
          (verified.atTime again, .ok (.error .invalidToken)) := by
  have hfound := findByHash_registered password hfree
  refine ⟨registered crypto draws email password store, register_stores hemail hpassword hfree, rfl,
    fun later hlate => ?_, fun later hlater => ?_⟩
  · refine verifyEmail_refuses hfound ?_
    rw [Option.filter_some, if_neg]
    rw [isValid_verificationToken]
    exact not_lt_of_ge hlate
  · refine ⟨_, verifyEmail_stores hfound (isValid_verificationToken.mpr hlater)
      (get_registered hfree), ?_, fun again => verifyEmail_refuses (findByHash_marked hfound) rfl⟩
    refine ⟨_, (RegistrationStore.get_saved _ draws.userId rfl).trans
      (congrArg (fun user : Option User => some ((user.map _).getD _)) (get_registered hfree)), ?_⟩
    exact ⟨rfl, rfl, rfl, rfl⟩

/-- Ann registers and follows her link at once. -/
theorem mailed_token_opens_once_ann : ∃ opened : RegistrationStore,
    RegistrationStore.empty.register annSettings plainCrypto ⟨"ann@example.com", "first-password"⟩
        ⟨⟨"ann"⟩, "1", ⟨"t1", "verify-text"⟩⟩ = (opened, .ok (.ok ())) ∧
      opened.mails = [⟨.verification, "ann@example.com", "verify-text"⟩] ∧
      (∀ later : Int, 0 + 3600000 ≤ later →
        (opened.atTime later).verifyEmail plainCrypto "verify-text" =
          (opened.atTime later, .ok (.error .invalidToken))) ∧
      ∀ later : Int, later < 0 + 3600000 → ∃ verified : RegistrationStore,
        (opened.atTime later).verifyEmail plainCrypto "verify-text" = (verified, .ok (.ok ())) ∧
        (∃ user, verified.users.get ⟨"ann"⟩ = some user ∧ user.email = "ann@example.com" ∧
          user.passwordHash = plainCrypto.passwordHash "first-password" "1" ∧
          user.status = .active ∧ user.emailVerifiedAt = some later) ∧
        ∀ again, (verified.atTime again).verifyEmail plainCrypto "verify-text" =
          (verified.atTime again, .ok (.error .invalidToken)) :=
  mailed_token_opens_once annSettings plainCrypto .empty ⟨"ann@example.com", "first-password"⟩
    ⟨⟨"ann"⟩, "1", ⟨"t1", "verify-text"⟩⟩ "ann@example.com" "first-password" (by decide +kernel)
    (by decide +kernel) ⟨fun _ h => absurd h List.not_mem_nil, rfl, rfl, rfl⟩

end AccessCore
