/-
  Whose account it is.

  Nobody proves who they are when they register an address or ask for a reset; what protects an
  account is that its tokens are sent to its address only.  Over every run of the four handlers from
  empty tables:

  1. `account_provenance`: the stored password was chosen by a registration of the address, or by a
     call that presented a reset token drawn for the address; an active account was verified with
     the token drawn by a registration of the address.
  2. `mails_open_own_accounts`: the text of a mail opens the account of the address it was sent to.
  3. `active_stays_active`: an account that is active once is active ever after, although every save
     writes a status back that was read earlier.
  4. `outbox_tells_accounts`: the outbox tells exactly the accounts of the table.
-/
import AccessCore.Identity.AccountProvenance
import AccessCore.Identity.PasswordRaces
import AccessCore.Authn.RefreshSafety

namespace AccessCore

open Interleave

/-! ## The invariant over runs -/

section Runs

variable {settings : AuthnSettings} {crypto : AccountCrypto} {moves : RegistrationMoves}

theorem accounted_empty (crypto : AccountCrypto) :
    Accounted crypto ⟨RegistrationStore.empty, []⟩ where
  users _ h := by cases h
  tokens kind _ h := by cases kind <;> cases h
  mails _ h := by cases h
  announced := rfl

theorem accounts_good
    (hok : (registrationMachine settings crypto).Along freshUserIds ⟨⟨.empty, []⟩, []⟩ moves) :
    (accountOutline settings crypto).Good (registrationRun settings crypto .empty moves) :=
  (Outline.Good.run (O := accountOutline settings crypto)
    (Outline.Good.init (accounted_empty crypto) rfl) hok).1

/-- What a call has asked for, its command asks for. -/
theorem command_of_asked {i : Nat} {op : RegistrationOp}
    (h : HasAsked (registrationRun settings crypto .empty moves).world i op) :
    ∃ call, (registrationRun settings crypto .empty moves).calls[i]? = some call ∧
      RegistrationAsks settings crypto call.command op := by
  obtain ⟨event, hevent, rfl⟩ := h
  obtain ⟨hmem, hcaller⟩ := List.mem_filter.mp hevent
  obtain ⟨call, hcall, hasks⟩ := Machine.caller_of_asks asks_registration hmem
  rw [of_decide_eq_true hcaller] at hcall
  exact ⟨call, hcall, hasks⟩

end Runs

/-! ## A run -/

/-- Ann registers, and verifies her address. -/
def annJoins : RegistrationMoves :=
  .start (.register ⟨"ann@example.com", "first-password"⟩ ⟨⟨"ann"⟩, "1", ⟨"t1", "verify-text"⟩⟩) ::
    List.replicate 6 (.run 0) ++
  .start (.account (.verifyEmail ⟨"verify-text"⟩)) :: List.replicate 5 (.run 1)

/-- Then she asks for a reset, and chooses another password. -/
def annResetsPassword : RegistrationMoves :=
  .start (.requestReset ⟨"ann@example.com"⟩ ⟨"t2", "reset-text"⟩) :: List.replicate 4 (.run 2) ++
  .start (.account (.resetPassword ⟨"reset-text", "second-password"⟩ "2")) ::
    List.replicate 7 (.run 3)

/-! ## Who has chosen the password, and who has verified the address -/

/-- A command is among the calls. -/
def IsCall (sys : RegistrationSystem) (command : RegistrationCommand) : Prop :=
  ∃ (i : Nat) (call : Call RegistrationCommand RegistrationOp RegistrationOp.Answer
    RegistrationStore RegistrationResult), sys.calls[i]? = some call ∧ call.command = command

/-- A registration of the address is among the calls. -/
def IsRegistration (settings : AuthnSettings) (sys : RegistrationSystem) (email : String)
    (command : RegisterUserCommand) (draws : RegisterDraws) : Prop :=
  IsCall sys (.register command draws) ∧ Email.create settings command.email = some email

/-- A request for a reset of the address is among the calls. -/
def IsRequest (settings : AuthnSettings) (sys : RegistrationSystem) (email : String)
    (command : RequestPasswordResetCommand) (draws : TokenDraws) : Prop :=
  IsCall sys (.requestReset command draws) ∧ Email.create settings command.email = some email

structure Owned (settings : AuthnSettings) (crypto : AccountCrypto) (sys : RegistrationSystem)
    (user : User) : Prop where
  registered : ∃ command draws, IsRegistration settings sys user.email command draws
  password :
    (∃ command draws, IsRegistration settings sys user.email command draws ∧
      user.passwordHash = crypto.passwordHash command.password draws.salt) ∨
    ∃ reset salt request draws, IsCall sys (.account (.resetPassword reset salt)) ∧
      user.passwordHash = crypto.passwordHash reset.password salt ∧
      IsRequest settings sys user.email request draws ∧
      crypto.tokenHash reset.token = crypto.tokenHash draws.raw
  active : user.status = .active → ∃ verify command draws,
    IsCall sys (.account (.verifyEmail verify)) ∧
      IsRegistration settings sys user.email command draws ∧
      crypto.tokenHash verify.token = crypto.tokenHash draws.token.raw

section Owned

variable {settings : AuthnSettings} {crypto : AccountCrypto} {moves : RegistrationMoves} {i : Nat}
  {email tokenHash : String}

/-- Only a registration saves a new user. -/
theorem registration_of_saved
    (h : RegisteredBy (registrationRun settings crypto .empty moves).world i email) :
    ∃ call command draws, (registrationRun settings crypto .empty moves).calls[i]? = some call ∧
      call.command = .register command draws ∧
        Email.create settings command.email = some email := by
  obtain ⟨user, events, hsaved, hregisters, rfl⟩ := h
  obtain ⟨call, hcall, hasks⟩ := command_of_asked hsaved
  cases hcommand : call.command with
  | register command draws =>
    rw [hcommand] at hasks
    exact ⟨call, command, draws, hcall, hcommand, hasks.2⟩
  | requestReset command draws =>
    rw [hcommand] at hasks
    cases hasks
  | account command =>
    rw [hcommand] at hasks
    have hnot : registers events = false := by cases command <;> exact hasks
    rw [hregisters] at hnot
    cases hnot

/-- Verification tokens are issued by registrations. -/
theorem registration_of_issued
    (h : IssuedFor (registrationRun settings crypto .empty moves).world .verification tokenHash
      email) : ∃ command draws,
        IsRegistration settings (registrationRun settings crypto .empty moves) email command draws ∧
        tokenHash = crypto.tokenHash draws.token.raw := by
  obtain ⟨i, hlooked, token, rfl, hsaved⟩ := h
  obtain ⟨call, hcall, hasks⟩ := command_of_asked hsaved
  obtain ⟨call', hcall', hlooks⟩ := command_of_asked hlooked
  obtain rfl := Option.some.inj (hcall.symm.trans hcall')
  cases hcommand : call.command with
  | register command draws =>
    rw [hcommand] at hasks hlooks
    exact ⟨command, draws, ⟨⟨i, call, hcall, hcommand⟩, hlooks⟩, hasks.2⟩
  | requestReset command draws =>
    rw [hcommand] at hasks
    cases hasks.1
  | account command =>
    rw [hcommand] at hasks
    exact hasks.elim

/-- Reset tokens are issued by requests. -/
theorem request_of_issued
    (h : IssuedFor (registrationRun settings crypto .empty moves).world .passwordReset tokenHash
      email) : ∃ command draws,
        IsRequest settings (registrationRun settings crypto .empty moves) email command draws ∧
        tokenHash = crypto.tokenHash draws.raw := by
  obtain ⟨i, hlooked, token, rfl, hsaved⟩ := h
  obtain ⟨call, hcall, hasks⟩ := command_of_asked hsaved
  obtain ⟨call', hcall', hlooks⟩ := command_of_asked hlooked
  obtain rfl := Option.some.inj (hcall.symm.trans hcall')
  cases hcommand : call.command with
  | register command draws =>
    rw [hcommand] at hasks
    cases hasks.1
  | requestReset command draws =>
    rw [hcommand] at hasks hlooks
    exact ⟨command, draws, ⟨⟨i, call, hcall, hcommand⟩, hlooks⟩, hasks.2⟩
  | account command =>
    rw [hcommand] at hasks
    exact hasks.elim

/-- A verification token is looked up by a call that verifies it. -/
theorem verify_of_presented
    (h : HasAsked (registrationRun settings crypto .empty moves).world i
      (lookupOf .verification tokenHash)) : ∃ verify,
        IsCall (registrationRun settings crypto .empty moves) (.account (.verifyEmail verify)) ∧
        tokenHash = crypto.tokenHash verify.token := by
  obtain ⟨call, hcall, hasks⟩ := command_of_asked h
  cases hcommand : call.command with
  | register command draws =>
    rw [hcommand] at hasks
    exact hasks.elim
  | requestReset command draws =>
    rw [hcommand] at hasks
    cases hasks
  | account command =>
    rw [hcommand] at hasks
    cases command with
    | resetPassword command salt => exact hasks.elim
    | verifyEmail command => exact ⟨command, ⟨i, call, hcall, hcommand⟩, hasks⟩

/-- A password is hashed by a registration of the address, or by a reset with a token issued for
    it. -/
theorem chosen_of_hashed {hash : String}
    (h : PasswordFrom crypto (registrationRun settings crypto .empty moves).world email hash) :
    (∃ command draws,
      IsRegistration settings (registrationRun settings crypto .empty moves) email command draws ∧
      hash = crypto.passwordHash command.password draws.salt) ∨
    ∃ reset salt request draws,
      IsCall (registrationRun settings crypto .empty moves) (.account (.resetPassword reset salt)) ∧
      hash = crypto.passwordHash reset.password salt ∧
      IsRequest settings (registrationRun settings crypto .empty moves) email request draws ∧
      crypto.tokenHash reset.token = crypto.tokenHash draws.raw := by
  obtain ⟨i, password, salt, hhashed, rfl, hby⟩ := h
  obtain ⟨call, hcall, hhashes⟩ := command_of_asked hhashed
  rcases hby with hregistered | ⟨tokenHash, hlooked, hissued⟩
  · obtain ⟨call', command, draws, hcall', hcommand, hemail⟩ := registration_of_saved hregistered
    obtain rfl := Option.some.inj (hcall.symm.trans hcall')
    rw [hcommand] at hhashes
    obtain ⟨rfl, rfl⟩ := hhashes
    exact Or.inl ⟨command, draws, ⟨⟨i, call, hcall, hcommand⟩, hemail⟩, rfl⟩
  · obtain ⟨request, draws, hrequest, rfl⟩ := request_of_issued hissued
    obtain ⟨call', hcall', hlooks⟩ := command_of_asked hlooked
    obtain rfl := Option.some.inj (hcall.symm.trans hcall')
    cases hcommand : call.command with
    | register command draws =>
      rw [hcommand] at hlooks
      exact hlooks.elim
    | requestReset command draws =>
      rw [hcommand] at hlooks
      cases hlooks
    | account command =>
      rw [hcommand] at hlooks hhashes
      cases command with
      | verifyEmail command => exact hhashes.elim
      | resetPassword reset salt' =>
        obtain ⟨rfl, rfl⟩ := hhashes
        exact Or.inr ⟨reset, salt, request, draws, ⟨i, call, hcall, hcommand⟩, rfl, hrequest,
          hlooks.symm⟩

end Owned

/-- In every run from empty tables whose user ids do not collide: each stored password and each
    verification goes back to the address of the account. -/
theorem account_provenance (settings : AuthnSettings) (crypto : AccountCrypto)
    (moves : RegistrationMoves)
    (hok : (registrationMachine settings crypto).Along freshUserIds ⟨⟨.empty, []⟩, []⟩ moves) :
    ∀ user ∈ (registrationRun settings crypto .empty moves).world.state.users.rows,
      Owned settings crypto (registrationRun settings crypto .empty moves) user := by
  intro user huser
  have hexplained := (accounts_good hok).inv.users user huser
  refine ⟨?_, chosen_of_hashed hexplained.password, fun hactive => ?_⟩
  · obtain ⟨i, hregistered⟩ := hexplained.registered
    obtain ⟨call, command, draws, hcall, hcommand, hemail⟩ := registration_of_saved hregistered
    exact ⟨command, draws, ⟨i, call, hcall, hcommand⟩, hemail⟩
  · obtain ⟨i, tokenHash, hlooked, hissued⟩ := hexplained.active hactive
    obtain ⟨verify, hverify, rfl⟩ := verify_of_presented hlooked
    obtain ⟨command, draws, hregistration, hhash⟩ := registration_of_issued hissued
    exact ⟨verify, command, draws, hverify, hregistration, hhash⟩

theorem account_provenance_ann :
    Owned annSettings plainCrypto (registrationRun annSettings plainCrypto .empty
        (annJoins ++ annResetsPassword))
      ⟨⟨"ann"⟩, "ann@example.com", "second-password2", .active, some 0, 0, 0⟩ :=
  account_provenance annSettings plainCrypto (annJoins ++ annResetsPassword) (by decide +kernel) _
    (by decide +kernel)

example : (registrationRun annSettings plainCrypto .empty
    (annJoins ++ annResetsPassword)).world.state.users.rows =
    [⟨⟨"ann"⟩, "ann@example.com", "second-password2", .active, some 0, 0, 0⟩] := by
  decide +kernel

/-! ## The mails -/

/-- No two accounts have one address, and no two tokens of a kind have one hash. -/
structure RegistrationStore.Unique (store : RegistrationStore) : Prop where
  emails : (store.users.rows.map (·.email)).Nodup
  hashes : ∀ kind, ((store.tokens kind).rows.map (·.tokenHash)).Nodup

namespace RegistrationStore

theorem emails_saveUser {store : AccountStore} (h : (store.users.rows.map (·.email)).Nodup)
    (user : User) (events : List DomainEvent) :
    ((store.saveUser user events).1.users.rows.map (·.email)).Nodup := by
  unfold AccountStore.saveUser
  split_ifs with htaken
  · exact h
  show ((store.users.upsert AccountStore.mergeUser AccountStore.mergeUser_keeps user).rows.map
    (·.email)).Nodup
  cases hrow : store.users.get user.id with
  | none =>
    -- the address is not taken
    have hfree : user.email ∉ store.users.rows.map (·.email) := by
      intro hmem
      obtain ⟨other, hother, hemail⟩ := List.mem_map.mp hmem
      refine htaken (Bool.and_eq_true_iff.mpr ⟨by rw [hrow]; rfl, ?_⟩)
      exact List.any_eq_true.mpr ⟨other, hother, decide_eq_true hemail⟩
    rw [Table.rows_upsert_of_get_none AccountStore.mergeUser_keeps hrow, List.map_append]
    refine List.Nodup.append h (List.nodup_singleton _) ?_
    simpa using hfree
  | some row =>
    rw [Table.rows_upsert_of_get AccountStore.mergeUser_keeps hrow, List.map_map]
    have hsame : store.users.rows.map ((·.email) ∘ fun old : User =>
        if old.id = user.id then AccountStore.mergeUser old user else old) =
        store.users.rows.map (·.email) := by
      refine List.map_congr_left fun old _ => ?_
      show (if old.id = user.id then AccountStore.mergeUser old user else old).email = old.email
      split_ifs <;> rfl
    rw [hsame]
    exact h

theorem hashes_consumeToken {tokens : Table MailedToken String (·.id)}
    (h : (tokens.rows.map (·.tokenHash)).Nodup) (token : MailedToken) :
    ((consumeToken tokens token).rows.map (·.tokenHash)).Nodup := by
  have hsame : (consumeToken tokens token).rows.map (·.tokenHash) =
      tokens.rows.map (·.tokenHash) := by
    unfold consumeToken Table.update
    rw [List.map_map]
    refine List.map_congr_left fun row _ => ?_
    show (if decide (row.id = token.id) = true then { row with consumedAt := token.consumedAt }
      else row).tokenHash = row.tokenHash
    split_ifs <;> rfl
  rw [hsame]
  exact h

theorem hashes_saveToken {store : RegistrationStore}
    (h : ∀ kind, ((store.tokens kind).rows.map (·.tokenHash)).Nodup) (kind : MailKind)
    (token : MailedToken) :
    ∀ kind', (((store.saveToken kind token).1.tokens kind').rows.map (·.tokenHash)).Nodup := by
  intro kind'
  rcases store.saveToken_cases kind token with hsame | ⟨hsaved, -, hfresh, hfree⟩
  · rw [hsame]
    exact h kind'
  · rw [hsaved, tokens_setTokens]
    split_ifs with hkind
    · have hrows : ((store.tokens kind).overwrite token).rows =
        (store.tokens kind).rows ++ [token] :=
        Table.rows_upsert_of_get_none (fun _ _ _ => rfl) hfresh
      rw [hrows, List.map_append]
      refine List.Nodup.append (h kind) (List.nodup_singleton _) ?_
      have hnone : ∀ row ∈ (store.tokens kind).rows, row.tokenHash ≠ token.tokenHash := by
        intro row hrow
        simpa using List.find?_eq_none.mp hfree row hrow
      simpa using hnone
    · exact h kind'

theorem Unique.of_same {store store' : RegistrationStore} (h : store.Unique)
    (husers : store'.users = store.users)
    (htokens : ∀ kind, store'.tokens kind = store.tokens kind) :
    store'.Unique := by
  refine ⟨?_, fun kind => ?_⟩
  · rw [husers]
    exact h.emails
  · rw [htokens]
    exact h.hashes kind

theorem Unique.exec (crypto : AccountCrypto) {store : RegistrationStore} (h : store.Unique)
    (op : RegistrationOp) : (store.exec crypto op).1.Unique := by
  cases op with
  | account op =>
    cases op with
    | saveUser user events =>
      refine ⟨emails_saveUser h.emails user events, fun kind => ?_⟩
      have hsame : ((store.exec crypto (.account (.saveUser user events))).1.tokens kind) =
          store.tokens kind := tokens_saveUser crypto store user events kind
      rw [hsame]
      exact h.hashes kind
    | consumeResetToken token =>
      refine ⟨h.emails, fun kind => ?_⟩
      cases kind with
      | verification => exact h.hashes .verification
      | passwordReset => exact hashes_consumeToken (h.hashes .passwordReset) token
    | consumeVerificationToken token =>
      refine ⟨h.emails, fun kind => ?_⟩
      cases kind with
      | verification => exact hashes_consumeToken (h.hashes .verification) token
      | passwordReset => exact h.hashes .passwordReset
    | _ => exact h.of_same rfl fun kind => by cases kind <;> rfl
  | saveToken kind token =>
    refine ⟨?_, hashes_saveToken h.hashes kind token⟩
    have husers : (store.saveToken kind token).1.users = store.users := by
      rcases store.saveToken_cases kind token with hsame | ⟨hsaved, -⟩
      · rw [hsame]
      · rw [hsaved, users_setTokens]
    show ((store.saveToken kind token).1.users.rows.map (·.email)).Nodup
    rw [husers]
    exact h.emails
  | send mail => exact ⟨h.emails, h.hashes⟩
  | _ => exact h

end RegistrationStore

theorem registrationRun_unique (settings : AuthnSettings) (crypto : AccountCrypto)
    (moves : RegistrationMoves) :
    (registrationRun settings crypto .empty moves).world.state.Unique := by
  have hempty : RegistrationStore.empty.Unique :=
    ⟨List.nodup_nil, fun kind => by cases kind <;> exact List.nodup_nil⟩
  exact Machine.run_keeps (M := registrationMachine settings crypto) (C := Conduct.free)
    (R := fun w w' : RegistrationWorld => w.state.Unique → w'.state.Unique) (fun _ h => h)
    (fun huv hvw h => hvw (huv h)) (fun i op w _ h => RegistrationStore.Unique.exec crypto h op)
    (fun nowMs w _ h => h.of_same rfl fun kind => by cases kind <;> rfl)
    (Machine.along_free _ moves) hempty

/-- In every run from empty tables whose user ids do not collide: whoever presents the text of a
    mail gets the account of the address that the mail was sent to, and there is no other with
    it. -/
theorem mails_open_own_accounts (settings : AuthnSettings) (crypto : AccountCrypto)
    (moves : RegistrationMoves)
    (hok : (registrationMachine settings crypto).Along freshUserIds ⟨⟨.empty, []⟩, []⟩ moves) :
    ∀ mail ∈ (registrationRun settings crypto .empty moves).world.state.mails, ∃ token user,
      findByHash ((registrationRun settings crypto .empty moves).world.state.tokens mail.kind)
        (crypto.tokenHash mail.token) = some token ∧
      (registrationRun settings crypto .empty moves).world.state.users.get token.userId =
        some user ∧
      user.email = mail.email ∧
      ∀ other ∈ (registrationRun settings crypto .empty moves).world.state.users.rows,
        other.email = mail.email → other = user := by
  intro mail hmail
  have hunique := registrationRun_unique settings crypto moves
  obtain ⟨token, htoken, hhash, user, huser, hemail⟩ := (accounts_good hok).inv.mails mail hmail
  refine ⟨token, user, ?_, huser, hemail, fun other hother hsame => ?_⟩
  · cases hfound : findByHash ((registrationRun settings crypto .empty moves).world.state.tokens
        mail.kind) (crypto.tokenHash mail.token) with
    | none => exact absurd hhash (by simpa using List.find?_eq_none.mp hfound token htoken)
    | some found =>
      obtain ⟨hmem, hfoundHash⟩ := mem_of_findByHash hfound
      rw [List.inj_on_of_nodup_map (hunique.hashes mail.kind) hmem htoken
        (hfoundHash.trans hhash.symm)]
  · exact List.inj_on_of_nodup_map hunique.emails hother (Table.mem_of_get huser).1
      (hsame.trans hemail.symm)

theorem mails_open_own_accounts_ann :
    ∃ token user, findByHash ((registrationRun annSettings plainCrypto .empty
        annJoins).world.state.tokens .verification) (plainCrypto.tokenHash "verify-text") =
          some token ∧
      (registrationRun annSettings plainCrypto .empty annJoins).world.state.users.get
        token.userId = some user ∧
      user.email = "ann@example.com" ∧
      ∀ other ∈ (registrationRun annSettings plainCrypto .empty annJoins).world.state.users.rows,
        other.email = "ann@example.com" → other = user :=
  mails_open_own_accounts annSettings plainCrypto annJoins (by decide +kernel)
    ⟨.verification, "ann@example.com", "verify-text"⟩ (by decide +kernel)

/-! ## Active accounts, and the outbox -/

/-- In every run from empty tables whose user ids do not collide, an active account stays active,
    and keeps its address. -/
theorem active_stays_active (settings : AuthnSettings) (crypto : AccountCrypto)
    (before after : RegistrationMoves)
    (hok : (registrationMachine settings crypto).Along freshUserIds ⟨⟨.empty, []⟩, []⟩
      (before ++ after)) :
    ∀ userId user,
      (registrationRun settings crypto .empty before).world.state.users.get userId = some user →
      user.status = .active →
      ∃ user', (registrationRun settings crypto .empty (before ++ after)).world.state.users.get
        userId = some user' ∧ user'.status = .active ∧ user'.email = user.email := by
  intro userId user huser hactive
  obtain ⟨hbefore, hafter⟩ := Machine.along_append.mp hok
  have hlater := ((accounts_good hbefore).run hafter).2
  rw [registrationRun, Machine.run_append]
  obtain ⟨user', huser', hemail, hstays⟩ := hlater.users userId user huser
  exact ⟨user', huser', hstays hactive, hemail⟩

theorem active_stays_active_ann :
    ∃ user', (registrationRun annSettings plainCrypto .empty
        (annJoins ++ annResetsPassword)).world.state.users.get ⟨"ann"⟩ = some user' ∧
      user'.status = .active ∧ user'.email = "ann@example.com" :=
  active_stays_active annSettings plainCrypto annJoins annResetsPassword (by decide +kernel) ⟨"ann"⟩
    ⟨⟨"ann"⟩, "ann@example.com", "first-password1", .active, some 0, 0, 0⟩ (by decide +kernel) rfl

/-- In every run from empty tables whose user ids do not collide, the outbox tells the accounts of
    the table, in their order: each once, with its address and the time of its registration, and
    active exactly when it is. -/
theorem outbox_tells_accounts (settings : AuthnSettings) (crypto : AccountCrypto)
    (moves : RegistrationMoves)
    (hok : (registrationMachine settings crypto).Along freshUserIds ⟨⟨.empty, []⟩, []⟩ moves) :
    replay (registrationRun settings crypto .empty moves).world.state.account.outbox =
      (registrationRun settings crypto .empty moves).world.state.users.rows.map
        AccountSummary.ofUser :=
  (accounts_good hok).inv.announced

theorem outbox_tells_accounts_ann :
    replay (registrationRun annSettings plainCrypto .empty
        (annJoins ++ annResetsPassword)).world.state.account.outbox =
      (registrationRun annSettings plainCrypto .empty
        (annJoins ++ annResetsPassword)).world.state.users.rows.map AccountSummary.ofUser :=
  outbox_tells_accounts annSettings plainCrypto (annJoins ++ annResetsPassword) (by decide +kernel)

end AccessCore
