/-
  Where the accounts come from: who can have chosen a password, and who can have activated an
  account, in any run of registrations, verifications, requests for a reset and resets.

  The argument is about what calls have asked for, which the log says.

  1. `Explained`: a registration of the address has saved the row; the stored hash is of a password
     that this registration, or a call with a reset token issued for the address, has hashed; and
     an active row goes back to a call with a verification token issued for the address.
  2. `Later`: what stays.  The log grows; users keep their addresses, and active ones stay active;
     tokens keep their user and their hash.
  3. `Accounted`, the invariant: every row is explained, every token is issued for the address of
     its user, and every mail goes to the address of the user whose token it carries.
  4. Every program keeps it, whatever the others do between two of its operations.  A handler
     writes back what it has read before; that the rows have the same address is enough for it.

  The one assumption is that user ids do not collide (`freshUserIds`).
-/
import AccessCore.Identity.AccountOutbox

namespace AccessCore

open Interleave

/-! ## What the log says -/

/-- A call has asked for an operation. -/
def HasAsked (w : RegistrationWorld) (i : Nat) (op : RegistrationOp) : Prop :=
  ∃ event ∈ w.own i, event.op = op

/-- A call that has looked up the address has stored a token with the hash. -/
def IssuedFor (w : RegistrationWorld) (kind : MailKind) (tokenHash email : String) : Prop :=
  ∃ i, HasAsked w i (.findByEmail email) ∧
    ∃ token : MailedToken, token.tokenHash = tokenHash ∧ HasAsked w i (.saveToken kind token)

/-- The operation that looks up a token that is presented. -/
def lookupOf : MailKind → String → RegistrationOp
  | .verification, tokenHash => .account (.findVerificationToken tokenHash)
  | .passwordReset, tokenHash => .account (.findResetToken tokenHash)

/-- A call has presented a token that was issued for the address. -/
def Presented (w : RegistrationWorld) (i : Nat) (kind : MailKind) (email : String) : Prop :=
  ∃ tokenHash, HasAsked w i (lookupOf kind tokenHash) ∧ IssuedFor w kind tokenHash email

/-- A call has saved a new user with the address. -/
def RegisteredBy (w : RegistrationWorld) (i : Nat) (email : String) : Prop :=
  ∃ user events, HasAsked w i (.account (.saveUser user events)) ∧ registers events = true ∧
    user.email = email

/-- A call has hashed the password, and it has registered the address or presented a reset token. -/
def PasswordFrom (crypto : AccountCrypto) (w : RegistrationWorld) (email hash : String) : Prop :=
  ∃ i password salt, HasAsked w i (.account (.hashPassword password salt)) ∧
    hash = crypto.passwordHash password salt ∧
    (RegisteredBy w i email ∨ Presented w i .passwordReset email)

structure Explained (crypto : AccountCrypto) (w : RegistrationWorld) (user : User) : Prop where
  registered : ∃ i, RegisteredBy w i user.email
  password : PasswordFrom crypto w user.email user.passwordHash
  active : user.status = .active → ∃ i, Presented w i .verification user.email

/-! ## What stays -/

/-- A row of the users later on. -/
def KeepsAccount (row row' : User) : Prop :=
  row'.email = row.email ∧ (row.status = .active → row'.status = .active)

/-- A row of the tokens later on. -/
def KeepsToken (row row' : MailedToken) : Prop :=
  row'.userId = row.userId ∧ row'.tokenHash = row.tokenHash

/-- The log later on. -/
def Grows (w w' : RegistrationWorld) : Prop := ∀ event ∈ w.log, event ∈ w'.log

structure Later (w w' : RegistrationWorld) : Prop where
  log : Grows w w'
  users : Table.Evolves KeepsAccount w.state.users w'.state.users
  tokens : ∀ kind, Table.Evolves KeepsToken (w.state.tokens kind) (w'.state.tokens kind)

namespace KeepsAccount

theorem refl (row : User) : KeepsAccount row row := ⟨rfl, id⟩

theorem trans {a b c : User} (hab : KeepsAccount a b) (hbc : KeepsAccount b c) : KeepsAccount a c :=
  ⟨hbc.1.trans hab.1, fun h => hbc.2 (hab.2 h)⟩

end KeepsAccount

namespace KeepsToken

theorem refl (row : MailedToken) : KeepsToken row row := ⟨rfl, rfl⟩

theorem trans {a b c : MailedToken} (hab : KeepsToken a b) (hbc : KeepsToken b c) :
    KeepsToken a c :=
  ⟨hbc.1.trans hab.1, hbc.2.trans hab.2⟩

end KeepsToken

namespace Later

theorem refl (w : RegistrationWorld) : Later w w :=
  ⟨fun _ h => h, .refl KeepsAccount.refl _, fun _ => .refl KeepsToken.refl _⟩

theorem trans {u v w : RegistrationWorld} (huv : Later u v) (hvw : Later v w) : Later u w :=
  ⟨fun event h => hvw.log event (huv.log event h), huv.users.trans hvw.users KeepsAccount.trans,
    fun kind => (huv.tokens kind).trans (hvw.tokens kind) KeepsToken.trans⟩

end Later

namespace Grows

variable {w w' : RegistrationWorld} (hgrows : Grows w w')

include hgrows

theorem asked {i : Nat} {op : RegistrationOp} (h : HasAsked w i op) : HasAsked w' i op := by
  obtain ⟨event, hevent, hop⟩ := h
  obtain ⟨hmem, hcaller⟩ := List.mem_filter.mp hevent
  exact ⟨event, List.mem_filter.mpr ⟨hgrows event hmem, hcaller⟩, hop⟩

theorem issuedFor {kind : MailKind} {tokenHash email : String}
    (h : IssuedFor w kind tokenHash email) :
    IssuedFor w' kind tokenHash email := by
  obtain ⟨i, hlooked, token, hhash, hsaved⟩ := h
  exact ⟨i, hgrows.asked hlooked, token, hhash, hgrows.asked hsaved⟩

theorem presented {i : Nat} {kind : MailKind} {email : String} (h : Presented w i kind email) :
    Presented w' i kind email := by
  obtain ⟨tokenHash, hlooked, hissued⟩ := h
  exact ⟨tokenHash, hgrows.asked hlooked, hgrows.issuedFor hissued⟩

theorem registeredBy {i : Nat} {email : String} (h : RegisteredBy w i email) :
    RegisteredBy w' i email := by
  obtain ⟨user, events, hsaved, hregisters, hemail⟩ := h
  exact ⟨user, events, hgrows.asked hsaved, hregisters, hemail⟩

theorem passwordFrom {crypto : AccountCrypto} {email hash : String}
    (h : PasswordFrom crypto w email hash) : PasswordFrom crypto w' email hash := by
  obtain ⟨i, password, salt, hhashed, heq, hby⟩ := h
  exact ⟨i, password, salt, hgrows.asked hhashed, heq,
    hby.imp hgrows.registeredBy hgrows.presented⟩

theorem explained {crypto : AccountCrypto} {user : User} (h : Explained crypto w user) :
    Explained crypto w' user where
  registered := h.registered.imp fun _ => hgrows.registeredBy
  password := hgrows.passwordFrom h.password
  active hactive := (h.active hactive).imp fun _ => hgrows.presented

end Grows

/-! ## The invariant -/

/-- A token is issued for the address of its user; a reset token is of an active one. -/
def Issued (w : RegistrationWorld) (kind : MailKind) (token : MailedToken) : Prop :=
  ∃ user, w.state.users.get token.userId = some user ∧ IssuedFor w kind token.tokenHash user.email ∧
    (kind = .passwordReset → user.status = .active)

/-- A mail carries a token of the user whose address it goes to. -/
def Delivered (crypto : AccountCrypto) (w : RegistrationWorld) (mail : Mail) : Prop :=
  ∃ token ∈ (w.state.tokens mail.kind).rows, token.tokenHash = crypto.tokenHash mail.token ∧
    ∃ user, w.state.users.get token.userId = some user ∧ user.email = mail.email

structure Accounted (crypto : AccountCrypto) (w : RegistrationWorld) : Prop where
  users : ∀ user ∈ w.state.users.rows, Explained crypto w user
  tokens : ∀ kind, ∀ token ∈ (w.state.tokens kind).rows, Issued w kind token
  mails : ∀ mail ∈ w.state.mails, Delivered crypto w mail
  announced : w.state.account.Announced

section Step

variable {crypto : AccountCrypto} {w w' : RegistrationWorld}

theorem Issued.later {kind : MailKind} {token token' : MailedToken} (h : Issued w kind token)
    (hlater : Later w w') (hkeeps : KeepsToken token token') : Issued w' kind token' := by
  obtain ⟨user, huser, hissued, hactive⟩ := h
  obtain ⟨user', huser', hemail, hstays⟩ := hlater.users _ user huser
  refine ⟨user', by rw [hkeeps.1, huser'], ?_, fun hkind => hstays (hactive hkind)⟩
  rw [hkeeps.2, hemail]
  exact hlater.log.issuedFor hissued

theorem Delivered.later {mail : Mail} (h : Delivered crypto w mail) (hlater : Later w w') :
    Delivered crypto w' mail := by
  obtain ⟨token, htoken, hhash, user, huser, hemail⟩ := h
  obtain ⟨token', htoken', -, huserId, hhash'⟩ := (hlater.tokens mail.kind).mem htoken
  obtain ⟨user', huser', hemail', -⟩ := hlater.users _ user huser
  exact ⟨token', htoken', hhash'.trans hhash, user', by rw [huserId, huser'], hemail'.trans hemail⟩

/-- The invariant carries over when every row is one that was there, or is accounted for now. -/
theorem Accounted.later (h : Accounted crypto w) (hlater : Later w w')
    (husers : ∀ user ∈ w'.state.users.rows, user ∈ w.state.users.rows ∨ Explained crypto w' user)
    (htokens : ∀ kind, ∀ token ∈ (w'.state.tokens kind).rows,
      (∃ old ∈ (w.state.tokens kind).rows, KeepsToken old token) ∨ Issued w' kind token)
    (hmails : ∀ mail ∈ w'.state.mails, mail ∈ w.state.mails ∨ Delivered crypto w' mail)
    (hannounced : w'.state.account.Announced) : Accounted crypto w' where
  users user huser := by
    rcases husers user huser with hold | hnew
    · exact hlater.log.explained (h.users user hold)
    · exact hnew
  tokens kind token htoken := by
    rcases htokens kind token htoken with ⟨old, hold, hkeeps⟩ | hnew
    · exact (h.tokens kind old hold).later hlater hkeeps
    · exact hnew
  mails mail hmail := by
    rcases hmails mail hmail with hold | hnew
    · exact (h.mails mail hold).later hlater
    · exact hnew
  announced := hannounced

end Step

/-! ## What the operations do -/

/-- The operation that marks a token. -/
def consumeOf : MailKind → MailedToken → RegistrationOp
  | .verification, token => .account (.consumeVerificationToken token)
  | .passwordReset, token => .account (.consumeResetToken token)

/-- The operations that write to none of the tables, and send nothing. -/
def Quiet : RegistrationOp → Prop
  | .account (.saveUser _ _) => False
  | .account (.consumeResetToken _) => False
  | .account (.consumeVerificationToken _) => False
  | .saveToken _ _ => False
  | .send _ => False
  | _ => True

section Operations

variable {settings : AuthnSettings} {crypto : AccountCrypto} {w : RegistrationWorld} {i : Nat}

/-- What every operation of every program keeps. -/
def Keeps (settings : AuthnSettings) (crypto : AccountCrypto) (i : Nat) (op : RegistrationOp)
    (w : RegistrationWorld) : Prop :=
  Accounted crypto ((registrationMachine settings crypto).act i op w) ∧
    Later w ((registrationMachine settings crypto).act i op w)

variable (settings crypto) in
theorem grows_act (i : Nat) (op : RegistrationOp) (w : RegistrationWorld) :
    Grows w ((registrationMachine settings crypto).act i op w) :=
  fun _ h => List.mem_cons_of_mem _ h

theorem Later.act {op : RegistrationOp}
    (husers : Table.Evolves KeepsAccount w.state.users (w.state.exec crypto op).1.users)
    (htokens : ∀ kind, Table.Evolves KeepsToken (w.state.tokens kind)
      ((w.state.exec crypto op).1.tokens kind)) :
    Later w ((registrationMachine settings crypto).act i op w) :=
  ⟨grows_act settings crypto i op w, husers, htokens⟩

variable (settings crypto w i) in
theorem hasAsked_act (op : RegistrationOp) :
    HasAsked ((registrationMachine settings crypto).act i op w) i op := by
  refine ⟨⟨i, op, w.state⟩, ?_, rfl⟩
  rw [Machine.own_act, if_pos rfl]
  exact List.mem_cons_self ..

variable (crypto) in
theorem exec_quiet {op : RegistrationOp} (h : Quiet op) (store : RegistrationStore) :
    (store.exec crypto op).1.users = store.users ∧
      (∀ kind, (store.exec crypto op).1.tokens kind = store.tokens kind) ∧
      (store.exec crypto op).1.mails = store.mails ∧
      (store.exec crypto op).1.account.outbox = store.account.outbox := by
  cases op with
  | account op =>
    cases op with
    | saveUser user events => exact h.elim
    | consumeResetToken token => exact h.elim
    | consumeVerificationToken token => exact h.elim
    | _ => exact ⟨rfl, fun kind => by cases kind <;> rfl, rfl, rfl⟩
  | saveToken kind token => exact h.elim
  | send mail => exact h.elim
  | _ => exact ⟨rfl, fun _ => rfl, rfl, rfl⟩

/-- An operation that leaves the tables and the mails alone. -/
theorem keeps_same {op : RegistrationOp} (hinv : Accounted crypto w)
    (husers : (w.state.exec crypto op).1.users = w.state.users)
    (htokens : ∀ kind, (w.state.exec crypto op).1.tokens kind = w.state.tokens kind)
    (hmails : (w.state.exec crypto op).1.mails = w.state.mails)
    (houtbox : (w.state.exec crypto op).1.account.outbox = w.state.account.outbox) :
    Keeps settings crypto i op w := by
  have hlater : Later w ((registrationMachine settings crypto).act i op w) := by
    refine .act ?_ fun kind => ?_
    · rw [husers]
      exact .refl KeepsAccount.refl _
    · rw [htokens]
      exact .refl KeepsToken.refl _
  refine ⟨hinv.later hlater (fun user huser => Or.inl ?_) (fun kind token htoken => Or.inl ?_)
    (fun mail hmail => Or.inl ?_) (hinv.announced.of_same houtbox husers), hlater⟩
  · rw [← husers]
    exact huser
  · refine ⟨token, ?_, .refl token⟩
    rw [← htokens]
    exact htoken
  · rw [← hmails]
    exact hmail

theorem keeps_quiet {op : RegistrationOp} (hinv : Accounted crypto w) (h : Quiet op) :
    Keeps settings crypto i op w := by
  obtain ⟨husers, htokens, hmails, houtbox⟩ := exec_quiet crypto h w.state
  exact keeps_same hinv husers htokens hmails houtbox

variable (crypto) in
theorem exec_consumeOf (kind : MailKind) (token : MailedToken) (store : RegistrationStore) :
    (store.exec crypto (consumeOf kind token)).1 =
      store.setTokens kind (consumeToken (store.tokens kind) token) := by
  cases kind <;> rfl

/-- A token that is marked keeps its user and its hash. -/
theorem keeps_consume (kind : MailKind) (token : MailedToken) (hinv : Accounted crypto w) :
    Keeps settings crypto i (consumeOf kind token) w := by
  have hexec := exec_consumeOf crypto kind token w.state
  have hmarked : Table.Evolves KeepsToken (w.state.tokens kind)
      (consumeToken (w.state.tokens kind) token) := by
    unfold consumeToken
    exact .update _ KeepsToken.refl fun _ _ => ⟨rfl, rfl⟩
  have hlater : Later w ((registrationMachine settings crypto).act i (consumeOf kind token) w) := by
    refine .act ?_ fun kind' => ?_
    · rw [hexec, RegistrationStore.users_setTokens]
      exact .refl KeepsAccount.refl _
    · rw [hexec, RegistrationStore.tokens_setTokens]
      split_ifs with hkind
      · rw [hkind]
        exact hmarked
      · exact .refl KeepsToken.refl _
  refine ⟨hinv.later hlater (fun user huser => Or.inl ?_) (fun kind' row hrow => Or.inl ?_)
    (fun mail hmail => Or.inl ?_) (hinv.announced.of_same ?_ ?_), hlater⟩
  · have hsame := congrArg RegistrationStore.users hexec
    rw [RegistrationStore.users_setTokens] at hsame
    rw [← hsame]
    exact huser
  · replace hrow : row ∈ ((w.state.exec crypto (consumeOf kind token)).1.tokens kind').rows := hrow
    rw [hexec, RegistrationStore.tokens_setTokens] at hrow
    split_ifs at hrow with hkind
    · obtain ⟨old, hold, rfl⟩ := List.mem_map.mp hrow
      rw [hkind]
      refine ⟨old, hold, ?_⟩
      split_ifs <;> exact ⟨rfl, rfl⟩
    · exact ⟨row, hrow, .refl row⟩
  · have hsame := congrArg RegistrationStore.mails hexec
    rw [RegistrationStore.mails_setTokens] at hsame
    rw [← hsame]
    exact hmail
  · have hsame := congrArg (·.account.outbox) hexec
    exact hsame.trans (RegistrationStore.outbox_setTokens ..)
  · have hsame := congrArg RegistrationStore.users hexec
    exact hsame.trans (RegistrationStore.users_setTokens ..)

theorem RegistrationStore.tokens_saveUser (crypto : AccountCrypto) (store : RegistrationStore)
    (user : User) (events : List DomainEvent) (kind : MailKind) :
    (store.exec crypto (.account (.saveUser user events))).1.tokens kind = store.tokens kind := by
  cases kind with
  | verification =>
    show (store.account.saveUser user events).1.verificationTokens = _
    unfold AccountStore.saveUser
    split_ifs <;> rfl
  | passwordReset => exact AccountStore.saveUser_passwordResetTokens _ _ _

/-- A save of a user that is explained, over a row of the same address. -/
theorem keeps_saveUser {user : User} {events : List DomainEvent} (hinv : Accounted crypto w)
    (hrow : ∀ row, w.state.users.get user.id = some row → KeepsAccount row user)
    (hexplained : Explained crypto ((registrationMachine settings crypto).act i
      (.account (.saveUser user events)) w) user)
    (hannounced : (w.state.account.saveUser user events).1.Announced) :
    Keeps settings crypto i (.account (.saveUser user events)) w := by
  have hget : ∀ id row, (w.state.account.saveUser user events).1.users.get id = some row →
      w.state.users.get id = some row ∨ (row.email = user.email ∧
        row.passwordHash = user.passwordHash ∧ row.status = user.status) := by
    intro id row hid
    rcases w.state.account.saveUser_cases user events with ⟨hsame, -⟩ | ⟨-, hnew⟩
    · rw [hsame] at hid
      exact Or.inl hid
    · rw [hnew] at hid
      split_ifs at hid with huser
      · refine Or.inr ?_
        subst huser
        cases hold : w.state.users.get user.id with
        | none =>
          rw [hold] at hid
          obtain rfl := Option.some.inj hid
          exact ⟨rfl, rfl, rfl⟩
        | some old =>
          rw [hold] at hid
          obtain rfl := Option.some.inj hid
          exact ⟨(hrow old hold).1.symm, rfl, rfl⟩
      · exact Or.inl hid
  have husers : Table.Evolves KeepsAccount w.state.users
      (w.state.account.saveUser user events).1.users := by
    intro id row hid
    rcases w.state.account.saveUser_cases user events with ⟨hsame, -⟩ | ⟨-, hnew⟩
    · rw [hsame]
      exact ⟨row, hid, .refl row⟩
    · rw [hnew]
      split_ifs with huser
      · subst huser
        rw [hid]
        exact ⟨_, rfl, rfl, (hrow row hid).2⟩
      · exact ⟨row, hid, .refl row⟩
  have htokens : ∀ kind, (w.state.exec crypto (.account (.saveUser user events))).1.tokens kind =
      w.state.tokens kind := RegistrationStore.tokens_saveUser crypto w.state user events
  have hlater : Later w ((registrationMachine settings crypto).act i
      (.account (.saveUser user events)) w) := by
    refine .act husers fun kind => ?_
    rw [htokens]
    exact .refl KeepsToken.refl _
  refine ⟨hinv.later hlater (fun row hmem => ?_) (fun kind token htoken => Or.inl ?_)
    (fun mail hmail => Or.inl hmail) hannounced, hlater⟩
  · rcases hget row.id row (Table.get_of_mem hmem) with hold | ⟨hemail, hhash, hstatus⟩
    · exact Or.inl (Table.mem_of_get hold).1
    · refine Or.inr ⟨?_, ?_, ?_⟩
      · rw [hemail]
        exact hexplained.registered
      · rw [hemail, hhash]
        exact hexplained.password
      · rw [hemail, hstatus]
        exact hexplained.active
  · refine ⟨token, ?_, .refl token⟩
    rw [← htokens]
    exact htoken

/-- A token that is stored for a user with the address it is issued for. -/
theorem keeps_saveToken {kind : MailKind} {token : MailedToken} {user : User}
    (hinv : Accounted crypto w) (huser : w.state.users.get token.userId = some user)
    (hlooked : HasAsked w i (.findByEmail user.email))
    (hactive : kind = .passwordReset → user.status = .active) :
    Keeps settings crypto i (.saveToken kind token) w := by
  have hasked := hasAsked_act settings crypto w i (.saveToken kind token)
  rcases w.state.saveToken_cases kind token with hsame | ⟨hsaved, -, hfresh, -⟩
  · -- refused
    have hexec : (w.state.exec crypto (.saveToken kind token)).1 = w.state :=
      congrArg Prod.fst hsame
    refine keeps_same hinv ?_ (fun _ => ?_) ?_ ?_ <;> rw [hexec]
  · have hexec : (w.state.exec crypto (.saveToken kind token)).1 =
        w.state.setTokens kind ((w.state.tokens kind).overwrite token) := congrArg Prod.fst hsaved
    have hlater : Later w ((registrationMachine settings crypto).act i
        (.saveToken kind token) w) := by
      refine .act ?_ fun kind' => ?_
      · rw [hexec, RegistrationStore.users_setTokens]
        exact .refl KeepsAccount.refl _
      · rw [hexec, RegistrationStore.tokens_setTokens]
        split_ifs with hkind
        · rw [hkind]
          exact .insert (fun _ _ _ => rfl) KeepsToken.refl hfresh
        · exact .refl KeepsToken.refl _
    have husers : ((registrationMachine settings crypto).act i
        (.saveToken kind token) w).state.users =
        w.state.users := by
      show (w.state.exec crypto (.saveToken kind token)).1.users = _
      rw [hexec, RegistrationStore.users_setTokens]
    refine ⟨hinv.later hlater (fun user huser => Or.inl ?_) (fun kind' row hrow => ?_)
      (fun mail hmail => Or.inl ?_) (hinv.announced.of_same ?_ husers), hlater⟩
    · rw [← husers]
      exact huser
    · replace hrow : row ∈ ((w.state.exec crypto (.saveToken kind token)).1.tokens kind').rows :=
        hrow
      rw [hexec, RegistrationStore.tokens_setTokens] at hrow
      split_ifs at hrow with hkind
      · rcases Table.mem_upsertRows hrow with rfl | ⟨old, -, -, rfl⟩ | hold
        · rw [hkind]
          refine Or.inr ⟨user, by rw [husers, huser],
            ⟨i, hlater.log.asked hlooked, row, rfl, hasked⟩, hactive⟩
        · rw [hkind]
          refine Or.inr ⟨user, by rw [husers, huser],
            ⟨i, hlater.log.asked hlooked, _, rfl, hasked⟩, hactive⟩
        · rw [hkind]
          exact Or.inl ⟨row, hold, .refl row⟩
      · exact Or.inl ⟨row, hrow, .refl row⟩
    · replace hmail : mail ∈ (w.state.exec crypto (.saveToken kind token)).1.mails := hmail
      rw [hexec, RegistrationStore.mails_setTokens] at hmail
      exact hmail
    · have hsame := congrArg (·.account.outbox) hexec
      exact hsame.trans (RegistrationStore.outbox_setTokens ..)

theorem keeps_send {mail : Mail} (hinv : Accounted crypto w)
    (hdelivered : Delivered crypto w mail) :
    Keeps settings crypto i (.send mail) w := by
  have hlater : Later w ((registrationMachine settings crypto).act i (.send mail) w) :=
    .act (.refl KeepsAccount.refl _) fun _ => .refl KeepsToken.refl _
  refine ⟨hinv.later hlater (fun user huser => Or.inl huser)
    (fun kind token htoken => Or.inl ⟨token, htoken, .refl token⟩) (fun other hother => ?_)
    hinv.announced, hlater⟩
  rcases List.mem_append.mp hother with hold | hnew
  · exact Or.inl hold
  · obtain rfl := List.mem_singleton.mp hnew
    exact Or.inr (hdelivered.later hlater)

end Operations

/-! ## The calls -/

section Calls

variable {settings : AuthnSettings} {crypto : AccountCrypto} {w : RegistrationWorld} {i : Nat}

abbrev AccountSafe (settings : AuthnSettings) (crypto : AccountCrypto) (i : Nat) {β : Type} :
    RegistrationProc β → RegistrationWorld → Prop :=
  Safe (registrationMachine settings crypto) freshUserIds (Accounted crypto) Later i fun _ _ => True

/-- An operation that keeps the invariant, in any world it may be performed in, and the rest. -/
theorem safe_keeps {β : Type} {op : RegistrationOp} {next : op.Answer → RegistrationProc β}
    (hkeeps : ∀ w', Accounted crypto w' → Later w w' → DrawsFresh op w' →
      Keeps settings crypto i op w')
    (hnext : ∀ w', Accounted crypto w' → Later w w' → DrawsFresh op w' →
      Later w' ((registrationMachine settings crypto).act i op w') →
      AccountSafe settings crypto i (next (w'.state.exec crypto op).2)
        ((registrationMachine settings crypto).act i op w')) :
    AccountSafe settings crypto i (.call op next) w := by
  intro w' hinv hlater _ hask
  obtain ⟨hinv', hact⟩ := hkeeps w' hinv hlater hask
  exact ⟨hinv', hact, hnext w' hinv hlater hask hact⟩

theorem safe_quiet {β : Type} {op : RegistrationOp} {next : op.Answer → RegistrationProc β}
    (hop : Quiet op)
    (hnext : ∀ w', Accounted crypto w' → Later w w' → DrawsFresh op w' →
      Later w' ((registrationMachine settings crypto).act i op w') →
      AccountSafe settings crypto i (next (w'.state.exec crypto op).2)
        ((registrationMachine settings crypto).act i op w')) :
    AccountSafe settings crypto i (.call op next) w :=
  safe_keeps (fun _ hinv _ _ => keeps_quiet hinv hop) hnext

/-- The token that `findByHash` returns is a row of the hash. -/
theorem mem_of_findByHash {tokens : Table MailedToken String (·.id)} {tokenHash : String}
    {token : MailedToken} (h : findByHash tokens tokenHash = some token) :
    token ∈ tokens.rows ∧ token.tokenHash = tokenHash :=
  ⟨List.mem_of_find?_eq_some h, by simpa using List.find?_some h⟩

theorem safe_mailToken {kind : MailKind} {userId : UserId} {email : String} {now ttlMinutes : Int}
    {draws : TokenDraws} {user : User} (huser : w.state.users.get userId = some user)
    (hemail : user.email = email) (hactive : kind = .passwordReset → user.status = .active)
    (hlooked : HasAsked w i (.findByEmail email)) :
    AccountSafe settings crypto i
      (RegistrationProc.mailToken crypto kind userId email now ttlMinutes draws) w := by
  -- the user later on
  have hlast : ∀ w', Later w w' → ∃ user', w'.state.users.get userId = some user' ∧
      user'.email = email ∧ (kind = .passwordReset → user'.status = .active) := by
    intro w' hlater
    obtain ⟨user', huser', hemail', hstays⟩ := hlater.users _ user huser
    exact ⟨user', huser', hemail'.trans hemail, fun hkind => hstays (hactive hkind)⟩
  refine safe_keeps (fun w' hinv hlater _ => ?_) fun w' _ hlater _ hact => ?_
  · obtain ⟨user', huser', hemail', hactive'⟩ := hlast w' hlater
    exact keeps_saveToken hinv huser' (by rw [hemail']; exact hlater.log.asked hlooked) hactive'
  obtain ⟨user', huser', hemail', -⟩ := hlast _ (hlater.trans hact)
  generalize htoken : MailedToken.issue draws.id userId (crypto.tokenHash draws.raw) now
    ttlMinutes = token at huser' ⊢
  have hhash : token.tokenHash = crypto.tokenHash draws.raw := by rw [← htoken]; rfl
  have hid : token.userId = userId := by rw [← htoken]; rfl
  rcases w'.state.saveToken_cases kind token with hsame | ⟨hsaved, -, -, -⟩
  · have hanswer : (w'.state.exec crypto (.saveToken kind token)).2 = false :=
      congrArg Prod.snd hsame
    rw [hanswer]
    trivial
  · have hanswer : (w'.state.exec crypto (.saveToken kind token)).2 = true :=
      congrArg Prod.snd hsaved
    rw [hanswer]
    have hrow : ((w'.state.exec crypto (.saveToken kind token)).1.tokens kind).get token.id =
        some token := by
      have hstate : (w'.state.exec crypto (.saveToken kind token)).1 = _ := congrArg Prod.fst hsaved
      rw [hstate, RegistrationStore.tokens_setTokens, if_pos rfl, Table.get_overwrite, if_pos rfl]
    have hdelivered : Delivered crypto ((registrationMachine settings crypto).act i
        (.saveToken kind token) w') ⟨kind, email, draws.raw⟩ :=
      ⟨token, (Table.mem_of_get hrow).1, hhash, user', by rw [hid]; exact huser', hemail'⟩
    exact safe_keeps (fun w'' hinv hlater' _ => keeps_send hinv (hdelivered.later hlater'))
      fun _ _ _ _ _ => trivial

/-- The save of a new user, whose token is then mailed to the address. -/
theorem safe_saveNew {β : Type} {userId : UserId} {email password salt : String} {now : Int}
    {draws : TokenDraws} {result : β} (hlooked : HasAsked w i (.findByEmail email))
    (hhashed : HasAsked w i (.account (.hashPassword password salt))) :
    AccountSafe settings crypto i
      (RegistrationProc.ofAccount (AccountProc.saveUser
        (User.register userId email (crypto.passwordHash password salt) now)) >>= fun _ =>
        RegistrationProc.mailToken crypto .verification userId email now verificationTokenTtlMinutes
          draws >>= fun _ => .done result) w := by
  generalize hnew : User.register userId email (crypto.passwordHash password salt) now = new
  have hid : new.1.id = userId := by rw [← hnew]; rfl
  have hemail : new.1.email = email := by rw [← hnew]; rfl
  have hhash : new.1.passwordHash = crypto.passwordHash password salt := by rw [← hnew]; rfl
  have hpending : new.1.status = .pendingVerification := by rw [← hnew]; rfl
  have hregisters : registers new.2 = true := by rw [← hnew]; rfl
  refine safe_keeps (fun w' hinv hlater hfresh => ?_) fun w' _ hlater hfresh hact => ?_
  · refine keeps_saveUser hinv (fun row hrow => ?_) ?_
      (AccountStore.replay_register hnew hinv.announced (hfresh hregisters))
    · -- the id is new
      rw [hfresh hregisters] at hrow
      cases hrow
    · have hsaved : RegisteredBy ((registrationMachine settings crypto).act i
          (.account (.saveUser new.1 new.2)) w') i new.1.email :=
        ⟨_, _, hasAsked_act settings crypto w' i _, hregisters, rfl⟩
      have hown : HasAsked ((registrationMachine settings crypto).act i
          (.account (.saveUser new.1 new.2)) w') i (.account (.hashPassword password salt)) :=
        (grows_act settings crypto i _ w').asked (hlater.log.asked hhashed)
      refine ⟨⟨i, hsaved⟩, ⟨i, password, salt, hown, hhash, Or.inl hsaved⟩, fun hactive => ?_⟩
      rw [hpending] at hactive
      cases hactive
  · replace hlooked := (hlater.trans hact).log.asked hlooked
    rcases w'.state.account.saveUser_cases new.1 new.2 with ⟨hsame, -⟩ | ⟨hsaved, hget⟩
    · have hanswer : (w'.state.exec crypto (.account (.saveUser new.1 new.2))).2 = false :=
        congrArg Prod.snd hsame
      rw [hanswer]
      trivial
    · have hanswer : (w'.state.exec crypto (.account (.saveUser new.1 new.2))).2 = true := hsaved
      rw [hanswer]
      have hnone : w'.state.account.users.get userId = none := by
        rw [← hid]
        exact hfresh hregisters
      have huser : ((registrationMachine settings crypto).act i (.account (.saveUser new.1 new.2))
          w').state.users.get userId = some new.1 := by
        refine (hget userId).trans ?_
        rw [if_pos hid.symm, hnone]
        rfl
      show AccountSafe settings crypto i
        (RegistrationProc.mailToken crypto _ _ _ _ _ _ >>= fun _ => .done result) _
      rw [AccountSafe, safe_bind]
      exact (safe_mailToken huser hemail (by simp) hlooked).mono fun _ _ _ => trivial

theorem safe_register (command : RegisterUserCommand) (draws : RegisterDraws) :
    AccountSafe settings crypto i (RegisterUserHandler.execute settings crypto command
      draws) w := by
  unfold RegisterUserHandler.execute
  cases Email.create settings command.email with
  | none => trivial
  | some email =>
  cases Password.create command.password with
  | error e => trivial
  | ok password =>
  refine safe_quiet trivial fun w₁ _ _ _ hact₁ => ?_
  have hlooked := hasAsked_act settings crypto w₁ i (.findByEmail email)
  generalize (w₁.state.exec crypto (.findByEmail email)).2 = existing
  cases (existing : Option User) with
  | some user => exact safe_quiet trivial fun _ _ _ _ _ => trivial
  | none =>
  refine safe_quiet trivial fun w₂ _ hlater₂ _ hact₂ => ?_
  have hhashed := hasAsked_act settings crypto w₂ i (.account (.hashPassword password draws.salt))
  refine safe_quiet trivial fun w₃ _ hlater₃ _ hact₃ => ?_
  have hlater := hlater₃.trans hact₃
  exact safe_saveNew (hlater.log.asked (hact₂.log.asked (hlater₂.log.asked hlooked)))
    (hlater.log.asked hhashed)

theorem safe_requestReset (command : RequestPasswordResetCommand) (draws : TokenDraws) :
    AccountSafe settings crypto i (RequestPasswordResetHandler.execute settings crypto
      command draws)
      w := by
  unfold RequestPasswordResetHandler.execute
  cases Email.create settings command.email with
  | none => trivial
  | some email =>
  refine safe_quiet trivial fun w₁ _ _ _ hact₁ => ?_
  have hlooked := hasAsked_act settings crypto w₁ i (.findByEmail email)
  dsimp only [Proc.bind]
  cases hfound : Option.filter (fun user : User => user.status = .active)
      (w₁.state.exec crypto (.findByEmail email)).2 with
  | none => trivial
  | some user =>
  obtain ⟨hfound, hactive⟩ := Option.filter_eq_some_iff.mp hfound
  have hemail : user.email = email := by simpa using List.find?_some hfound
  have huser : w₁.state.users.get user.id = some user :=
    Table.get_of_mem (List.mem_of_find?_eq_some hfound)
  obtain ⟨user₁, huser₁, hemail₁, hactive₁⟩ := hact₁.users _ user huser
  refine safe_quiet trivial fun w₂ _ hlater₂ _ hact₂ => ?_
  have hlater := hlater₂.trans hact₂
  obtain ⟨user₂, huser₂, hemail₂, hactive₂⟩ := hlater.users _ user₁ huser₁
  refine safe_mailToken huser₂ (hemail₂.trans (hemail₁.trans hemail)) (fun _ => ?_)
    (hlater.log.asked hlooked)
  exact hactive₂ (hactive₁ (of_decide_eq_true hactive))

/-- A token that has been looked up and is valid was issued for the address of its user. -/
theorem presented_of_find (kind : MailKind) {tokenHash : String} {token : MailedToken} {now : Int}
    (hinv : Accounted crypto w)
    (hact : Later w ((registrationMachine settings crypto).act i (lookupOf kind tokenHash) w))
    (hfound : (findByHash (w.state.tokens kind) tokenHash).filter (·.isValid now) = some token) :
    ∃ user, ((registrationMachine settings crypto).act i
      (lookupOf kind tokenHash) w).state.users.get
        token.userId = some user ∧
      Presented ((registrationMachine settings crypto).act i (lookupOf kind tokenHash) w) i kind
        user.email ∧
      (kind = .passwordReset → user.status = .active) := by
  obtain ⟨hfound, -⟩ := Option.filter_eq_some_iff.mp hfound
  obtain ⟨hmem, hhash⟩ := mem_of_findByHash hfound
  obtain ⟨user, huser, hissued, hactive⟩ := (hinv.tokens kind token hmem).later hact (.refl token)
  rw [hhash] at hissued
  exact ⟨user, huser, ⟨tokenHash, hasAsked_act settings crypto w i _, hissued⟩, hactive⟩

/-- The user that is read later is the same account. -/
theorem find_later {w₀ : RegistrationWorld} {userId : UserId} {user found : User}
    (hlater : Later w₀ w) (huser : w₀.state.users.get userId = some user)
    (hfound : w.state.users.get userId = some found) :
    found.id = userId ∧ KeepsAccount user found := by
  obtain ⟨row, hrow, hkeeps⟩ := hlater.users _ user huser
  obtain rfl := Option.some.inj (hrow.symm.trans hfound)
  exact ⟨(Table.mem_of_get hfound).2, hkeeps⟩

/-- A save of an active user that is explained, over the row that was read. -/
theorem safe_saveChanged {β : Type} {changed : User × List DomainEvent} {rest : AccountProc β}
    {w₀ : RegistrationWorld} {user : User} (hsince : Later w₀ w)
    (hread : w₀.state.users.get changed.1.id = some user) (hemail : changed.1.email = user.email)
    (hactive : changed.1.status = .active) (hexplained : Explained crypto w changed.1)
    (hevents : TellsActive changed.1.id changed.2 ∨ TellsNothing changed.2 ∧ user.status = .active)
    (hrest : ∀ w', AccountSafe settings crypto i (RegistrationProc.ofAccount rest) w') :
    AccountSafe settings crypto i
      (RegistrationProc.ofAccount (AccountProc.saveUser changed >>= fun _ => rest)) w := by
  refine safe_keeps (fun w' hinv hlater _ => ?_) fun w' _ _ _ _ => ?_
  · obtain ⟨last, hlast, -, hstays⟩ := (hsince.trans hlater).users _ user hread
    have hannounced := AccountStore.replay_change hinv.announced hlast hactive
      (hevents.imp_right fun h => ⟨h.1, hstays h.2⟩)
    refine keeps_saveUser hinv (fun row hrow => ?_) ?_ hannounced
    · obtain ⟨-, hkeeps⟩ := find_later (hsince.trans hlater) hread hrow
      exact ⟨hemail.trans hkeeps.1.symm, fun _ => hactive⟩
    · exact (grows_act settings crypto i _ w').explained (hlater.log.explained hexplained)
  · generalize (w'.state.exec crypto (.account (.saveUser changed.1 changed.2))).2 = saved
    cases (saved : Bool) with
    | true => exact hrest _
    | false => trivial

theorem safe_resetPassword (command : ResetPasswordCommand) (salt : String) :
    AccountSafe settings crypto i
      (RegistrationProc.ofAccount (ResetPasswordHandler.execute crypto command salt)) w := by
  unfold ResetPasswordHandler.execute
  cases Password.create command.password with
  | error e => trivial
  | ok password =>
  refine safe_quiet trivial fun w₁ hinv₁ _ _ hact₁ => ?_
  refine safe_quiet trivial fun w₂ _ hlater₂ _ hact₂ => ?_
  dsimp only [Proc.bind]
  generalize (w₂.state.exec crypto (.account .now)).2 = now
  cases htoken : Option.filter (fun token : MailedToken => token.isValid now) (w₁.state.exec crypto
      (.account (.findResetToken (crypto.tokenHash command.token)))).2 with
  | none => trivial
  | some token =>
  -- the token is of an active user, and was issued for the address
  obtain ⟨user, huser, hpresented, hactive⟩ := presented_of_find .passwordReset hinv₁ hact₁ htoken
  have hlater := hlater₂.trans hact₂
  refine safe_quiet trivial fun w₃ hinv₃ hlater₃ _ hact₃ => ?_
  cases hfound : (w₃.state.exec crypto (.account (.findUser token.userId))).2 with
  | none => trivial
  | some found =>
  obtain ⟨hid, hemail, hstays⟩ := find_later (hlater.trans hlater₃) huser hfound
  have hread : w₃.state.users.get found.id = some found := by
    rw [hid]
    exact hfound
  refine safe_quiet trivial fun w₄ _ hlater₄ _ hact₄ => ?_
  have hhashed := hasAsked_act settings crypto w₄ i (.account (.hashPassword password salt))
  have hsince := hact₃.trans (hlater₄.trans hact₄)
  have hexplained := hsince.log.explained (hinv₃.users found (Table.mem_of_get hfound).1)
  replace hpresented := (hlater.trans (hlater₃.trans hsince)).log.presented hpresented
  rw [← hemail] at hpresented
  refine safe_saveChanged hsince hread rfl (hstays (hactive rfl))
    ⟨hexplained.registered, ?_, hexplained.active⟩
    (Or.inr ⟨tellsNothing_changePassword _ _ _, hstays (hactive rfl)⟩) fun _ => ?_
  · exact ⟨i, password, salt, hhashed, rfl, Or.inr hpresented⟩
  · refine safe_keeps (fun w' hinv _ _ => keeps_consume .passwordReset _ hinv) fun _ _ _ _ _ => ?_
    exact safe_quiet trivial fun _ _ _ _ _ => trivial

theorem safe_verifyEmail (command : VerifyEmailCommand) :
    AccountSafe settings crypto i
      (RegistrationProc.ofAccount (VerifyEmailHandler.execute crypto command)) w := by
  refine safe_quiet trivial fun w₁ hinv₁ _ _ hact₁ => ?_
  refine safe_quiet trivial fun w₂ _ hlater₂ _ hact₂ => ?_
  dsimp only [Proc.bind]
  generalize (w₂.state.exec crypto (.account .now)).2 = now
  cases htoken : Option.filter (fun token : MailedToken => token.isValid now) (w₁.state.exec crypto
      (.account (.findVerificationToken (crypto.tokenHash command.token)))).2 with
  | none => trivial
  | some token =>
  obtain ⟨user, huser, hpresented, -⟩ := presented_of_find .verification hinv₁ hact₁ htoken
  have hlater := hlater₂.trans hact₂
  refine safe_quiet trivial fun w₃ hinv₃ hlater₃ _ hact₃ => ?_
  cases hfound : (w₃.state.exec crypto (.account (.findUser token.userId))).2 with
  | none => trivial
  | some found =>
  obtain ⟨hid, hemail, -⟩ := find_later (hlater.trans hlater₃) huser hfound
  have hread : w₃.state.users.get (found.verifyEmail now).1.id = some found := by
    rw [found.verifyEmail_id now, hid]
    exact hfound
  have hexplained := hact₃.log.explained (hinv₃.users found (Table.mem_of_get hfound).1)
  replace hpresented := (hlater.trans (hlater₃.trans hact₃)).log.presented hpresented
  rw [← hemail] at hpresented
  refine safe_saveChanged hact₃ hread (found.verifyEmail_email now) (found.verifyEmail_status now)
    ⟨?_, ?_, fun _ => ?_⟩ ?_ fun _ => ?_
  · rw [found.verifyEmail_email now]
    exact hexplained.registered
  · rw [found.verifyEmail_email now, found.verifyEmail_passwordHash now]
    exact hexplained.password
  · rw [found.verifyEmail_email now]
    exact ⟨i, hpresented⟩
  · rw [found.verifyEmail_id now]
    exact announced_verifyEmail found now
  · exact safe_keeps (fun w' hinv _ _ => keeps_consume .verification _ hinv)
      fun _ _ _ _ _ => trivial

theorem safe_account (command : AccountCommand) :
    AccountSafe settings crypto i
      (RegistrationProc.ofAccount ((accountMachine crypto).program command)) w := by
  cases command with
  | resetPassword command salt =>
    show AccountSafe settings crypto i
      (RegistrationProc.ofAccount (ResetPasswordHandler.execute crypto command salt >>= _)) w
    rw [RegistrationProc.ofAccount_bind, AccountSafe, safe_bind]
    exact (safe_resetPassword command salt).mono fun _ _ _ => trivial
  | verifyEmail command =>
    show AccountSafe settings crypto i
      (RegistrationProc.ofAccount (VerifyEmailHandler.execute crypto command >>= _)) w
    rw [RegistrationProc.ofAccount_bind, AccountSafe, safe_bind]
    exact (safe_verifyEmail command).mono fun _ _ _ => trivial

end Calls

/-- The outline. -/
def accountOutline (settings : AuthnSettings) (crypto : AccountCrypto) :
    Outline (registrationMachine settings crypto) freshUserIds where
  Inv := Accounted crypto
  Rely := Later
  refl := Later.refl
  trans := Later.trans
  happen nowMs w h _ := by
    have hlater : Later w ((registrationMachine settings crypto).happen nowMs w) :=
      ⟨fun _ hevent => hevent, .refl KeepsAccount.refl _, fun kind => by
        cases kind <;> exact .refl KeepsToken.refl _⟩
    refine ⟨h.later hlater (fun user huser => Or.inl huser) (fun kind token htoken => Or.inl ?_)
      (fun mail hmail => Or.inl hmail) h.announced, hlater⟩
    refine ⟨token, ?_, .refl token⟩
    cases kind <;> exact htoken
  Post _ _ _ _ _ := True
  safe command i w _ _ _ := by
    cases command with
    | register command draws =>
      show AccountSafe settings crypto i (RegisterUserHandler.execute _ _ _ _ >>= _) _
      rw [AccountSafe, safe_bind]
      exact (safe_register command draws).mono fun _ _ _ => trivial
    | requestReset command draws =>
      show AccountSafe settings crypto i (RequestPasswordResetHandler.execute _ _ _ _ >>= _) _
      rw [AccountSafe, safe_bind]
      exact (safe_requestReset command draws).mono fun _ _ _ => trivial
    | account command =>
      show AccountSafe settings crypto i (RegistrationProc.ofAccount _ >>= _) _
      rw [AccountSafe, safe_bind]
      exact (safe_account command).mono fun _ _ _ => trivial

end AccessCore
