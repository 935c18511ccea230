/-
  Password resets and email verifications write the same row.

  Each reads the user, changes one aspect of its copy and writes every mutable column back, so a
  write undoes what happened to the other aspect since the read.  `WritesAsRead` says when it does
  not.  Along runs whose writes all meet it, the stored hash is the one that the last reset has
  stored, and an active user stays active (`password_changes_kept`).
-/
import AccessCore.Identity.PasswordRaces

namespace AccessCore

open Interleave

/-- The user that an event read. -/
def readUser (event : AccountEvent) : Option User :=
  match event.op with
  | .findUser userId => event.before.users.get userId
  | _ => none

/-- A write does not undo what has happened to the row since its caller read it: a reset writes a
    user that has become active only if it read an active one, and a verification writes the hash
    that is stored. -/
def WritesAsRead (i : Nat) (op : AccountOp) (w : AccountWorld) : Prop :=
  match op with
  | .saveUser _ events => ∀ read ∈ w.own i, ∀ was ∈ readUser read,
      ∀ row ∈ w.state.users.get was.id,
        if changesPassword events = true then row.status = .active → was.status = .active
        else row.passwordHash = was.passwordHash
  | _ => True

/-- Runs whose writes undo nothing. -/
def writtenAsRead : Conduct AccountCommand Int AccountOp AccountStore where
  start _ _ := True
  ask := WritesAsRead
  event _ _ := True

instance (i : Nat) (op : AccountOp) (w : AccountWorld) : Decidable (WritesAsRead i op w) := by
  induction op using AccountOp.casesOn with
  | saveUser user events =>
    exact inferInstanceAs (Decidable (∀ read ∈ w.own i, ∀ was ∈ readUser read,
      ∀ row ∈ w.state.users.get was.id,
        if changesPassword events = true then row.status = .active → was.status = .active
        else row.passwordHash = was.passwordHash))
  | _ => exact .isTrue trivial

instance (crypto : AccountCrypto) (sys : AccountSystem) (moves : AccountMoves) :
    Decidable ((accountMachine crypto).Along writtenAsRead sys moves) :=
  have : ∀ c w, Decidable (writtenAsRead.start c w) := fun _ _ => .isTrue trivial
  have : ∀ i op w, Decidable (writtenAsRead.ask i op w) := fun i op w =>
    inferInstanceAs (Decidable (WritesAsRead i op w))
  have : ∀ e w, Decidable (writtenAsRead.event e w) := fun _ _ => .isTrue trivial
  Machine.Along.decidable (accountMachine crypto) writtenAsRead sys moves

/-- An event is the save of a reset, which stores this hash for the user. -/
def ResetStores (sys : AccountSystem) (event : AccountEvent) (userId : UserId) (hash : String) :
    Prop :=
  (∃ user events, event.op = .saveUser user events ∧ user.id = userId ∧ user.passwordHash = hash ∧
    (event.before.saveUser user events).2 = true) ∧
  ∃ call command salt, sys.calls[event.caller]? = some call ∧
    call.command = .resetPassword command salt

/-- The stored hash of a user is the one that the last reset has stored. -/
def PasswordKept (sys : AccountSystem) : Prop :=
  ∀ later event earlier userId hash, sys.world.log = later ++ event :: earlier →
    ResetStores sys event userId hash →
    (∀ other ∈ later, ∀ hash', ¬ ResetStores sys other userId hash') →
    ∃ row ∈ sys.world.state.users.get userId, row.passwordHash = hash

/-- Who is active at one moment is active at every later one. -/
def ActiveKept (w w' : AccountWorld) : Prop :=
  ∀ userId row, w.state.users.get userId = some row → ∃ row',
    w'.state.users.get userId = some row' ∧ (row.status = .active → row'.status = .active)

/-- Of a run: no password change is lost, and no active user becomes inactive. -/
def ChangesKept (crypto : AccountCrypto) (store : AccountStore) (moves : AccountMoves) : Prop :=
  PasswordKept (accountRun crypto store moves) ∧ ∀ before after, moves = before ++ after →
    ActiveKept (accountRun crypto store before).world (accountRun crypto store moves).world

/-! ## The step lemma -/

/-- The same as `ResetStores`, by what the event writes. -/
def StoresChange (event : AccountEvent) (userId : UserId) (hash : String) : Prop :=
  ∃ user events, event.op = .saveUser user events ∧ changesPassword events = true ∧
    user.id = userId ∧ user.passwordHash = hash ∧ (event.before.saveUser user events).2 = true

/-- The last change of a password is the one that is stored. -/
def LastStored (w : AccountWorld) : Prop :=
  ∀ later event earlier userId hash, w.log = later ++ event :: earlier →
    StoresChange event userId hash →
    (∀ other ∈ later, ∀ hash', ¬ StoresChange other userId hash') →
    ∃ row ∈ w.state.users.get userId, row.passwordHash = hash

/-- What a caller saves is what it has read, up to its own change. -/
def SavesRead (i : Nat) (op : AccountOp) (w : AccountWorld) : Prop :=
  ∀ user events, op = .saveUser user events → ∃ read ∈ w.own i, ∃ was ∈ readUser read,
    was.id = user.id ∧ if changesPassword events = true then user.status = was.status
      else user.passwordHash = was.passwordHash ∧ user.status = .active

section Step

variable {crypto : AccountCrypto} {w : AccountWorld} {i : Nat} {op : AccountOp}

theorem ActiveKept.refl (w : AccountWorld) : ActiveKept w w := fun _ row hrow => ⟨row, hrow, id⟩

theorem ActiveKept.trans {u v w : AccountWorld} (huv : ActiveKept u v) (hvw : ActiveKept v w) :
    ActiveKept u w := by
  intro userId row hrow
  obtain ⟨row', hrow', h⟩ := huv userId row hrow
  obtain ⟨row'', hrow'', h'⟩ := hvw userId row' hrow'
  exact ⟨row'', hrow'', fun hactive => h' (h hactive)⟩

/-- Only a save writes to the users. -/
theorem exec_users (hop : ∀ user events, op ≠ .saveUser user events) (store : AccountStore) :
    (store.exec crypto op).1.users = store.users := by
  cases op with
  | saveUser user events => exact absurd rfl (hop user events)
  | _ => rfl

/-- The row that a successful save leaves. -/
theorem saveUser_row {store : AccountStore} {user : User} {events : List DomainEvent}
    (hsaved : (store.saveUser user events).2 = true) (id : UserId) :
    ∃ row, (store.saveUser user events).1.users.get user.id = some row ∧
      row.passwordHash = user.passwordHash ∧ row.status = user.status ∧
      (id ≠ user.id → (store.saveUser user events).1.users.get id = store.users.get id) := by
  rcases store.saveUser_cases user events with ⟨hsame, -⟩ | ⟨-, hget⟩
  · rw [hsame] at hsaved
    cases hsaved
  · refine ⟨_, by rw [hget, if_pos rfl], ?_, ?_, fun hne => by rw [hget, if_neg hne]⟩
    · cases store.users.get user.id <;> rfl
    · cases store.users.get user.id <;> rfl

theorem activeKept_act (hask : WritesAsRead i op w) (hsaves : SavesRead i op w) :
    ActiveKept w ((accountMachine crypto).act i op w) := by
  intro userId row hrow
  by_cases hop : ∃ user events, op = .saveUser user events
  · obtain ⟨user, events, rfl⟩ := hop
    show ∃ row', (w.state.saveUser user events).1.users.get userId = some row' ∧ _
    rcases w.state.saveUser_cases user events with ⟨hsame, -⟩ | ⟨hsaved, -⟩
    · rw [hsame]
      exact ⟨row, hrow, id⟩
    · obtain ⟨row', hrow', -, hstatus, hothers⟩ := saveUser_row hsaved userId
      by_cases hid : userId = user.id
      · subst hid
        refine ⟨row', hrow', fun hactive => hstatus.trans ?_⟩
        obtain ⟨read, hread, was, hwas, hwasid, hcopy⟩ := hsaves user events rfl
        have hnow := hask read hread was hwas row (by rw [hwasid]; exact hrow)
        by_cases hchanges : changesPassword events = true
        · rw [if_pos hchanges] at hcopy hnow
          exact hcopy.trans (hnow hactive)
        · rw [if_neg hchanges] at hcopy
          exact hcopy.2
      · exact ⟨row, (hothers hid).trans hrow, id⟩
  · refine ⟨row, ?_, id⟩
    show ((w.state.exec crypto op).1.users.get userId) = some row
    rw [exec_users fun user events heq => hop ⟨user, events, heq⟩]
    exact hrow

/-- The step lemma: a change is stored until the next one. -/
theorem LastStored.act (h : LastStored w) (hask : WritesAsRead i op w)
    (hsaves : SavesRead i op w) : LastStored ((accountMachine crypto).act i op w) := by
  intro later event earlier userId hash hlog hstores hlast
  cases later with
  | nil =>
    obtain ⟨rfl, -⟩ := List.cons.inj hlog
    obtain ⟨user, events, rfl, -, rfl, rfl, hsaved⟩ := hstores
    obtain ⟨row, hrow, hhash, -⟩ := saveUser_row hsaved user.id
    exact ⟨row, hrow, hhash⟩
  | cons newest later =>
    obtain ⟨rfl, hearlier⟩ := List.cons.inj hlog
    obtain ⟨row, hrow, hhash⟩ := h later event earlier userId hash hearlier hstores
      fun other hother => hlast other (List.mem_cons_of_mem _ hother)
    by_cases hop : ∃ user events, op = .saveUser user events
    · obtain ⟨user, events, rfl⟩ := hop
      show ∃ row ∈ (w.state.saveUser user events).1.users.get userId, row.passwordHash = hash
      rcases w.state.saveUser_cases user events with ⟨hsame, -⟩ | ⟨hsaved, -⟩
      · rw [hsame]
        exact ⟨row, hrow, hhash⟩
      · obtain ⟨row', hrow', hhash', -, hothers⟩ := saveUser_row hsaved userId
        by_cases hid : userId = user.id
        · subst hid
          -- not a change, so the hash it read, which is the one that is stored
          have hunchanged : ¬ changesPassword events = true := fun hchanges =>
            hlast _ (List.mem_cons_self ..) user.passwordHash
              ⟨user, events, rfl, hchanges, rfl, rfl, hsaved⟩
          obtain ⟨read, hread, was, hwas, hwasid, hcopy⟩ := hsaves user events rfl
          have hnow := hask read hread was hwas row (by rw [hwasid]; exact hrow)
          rw [if_neg hunchanged] at hcopy hnow
          exact ⟨row', hrow', (hhash'.trans hcopy.1).trans (hnow.symm.trans hhash)⟩
        · refine ⟨row, ?_, hhash⟩
          rw [hothers hid]
          exact hrow
    · refine ⟨row, ?_, hhash⟩
      show row ∈ (w.state.exec crypto op).1.users.get userId
      rw [exec_users fun user events heq => hop ⟨user, events, heq⟩]
      exact hrow

end Step

/-! ## The calls -/

theorem changesPassword_verifyEmail (user : User) (now : Int) :
    changesPassword (user.verifyEmail now).2 = false := by
  unfold User.verifyEmail
  split_ifs <;> rfl

section Calls

variable {crypto : AccountCrypto} {w : AccountWorld} {i : Nat}

abbrev WriteSafe (crypto : AccountCrypto) (i : Nat) {β : Type} (Post : β → AccountWorld → Prop) :
    AccountProc β → AccountWorld → Prop :=
  Safe (accountMachine crypto) writtenAsRead LastStored ActiveKept i Post

variable (crypto) in
theorem write_act (op : AccountOp) (hinv : LastStored w) (hask : writtenAsRead.ask i op w)
    (hsaves : SavesRead i op w) : LastStored ((accountMachine crypto).act i op w) ∧
      ActiveKept w ((accountMachine crypto).act i op w) :=
  ⟨hinv.act hask hsaves, activeKept_act hask hsaves⟩

/-- Programs that save nothing. -/
theorem writeSafe_of_asks {β : Type} {p : AccountProc β}
    (hp : p.Asks fun op => ∀ user events, op ≠ .saveUser user events) :
    WriteSafe crypto i (fun _ _ => True) p w :=
  .of_asks (fun op _ hop hinv hask => write_act crypto op hinv hask fun user events heq =>
    absurd heq (hop user events)) hp

/-- A save of what has been read, and what saves nothing after it. -/
theorem safe_saveUser {β : Type} {changed : User × List DomainEvent} {rest : AccountProc β}
    (hsaves : ∀ w', w'.own i = w.own i → SavesRead i (.saveUser changed.1 changed.2) w')
    (hrest : rest.Asks fun op => ∀ user events, op ≠ .saveUser user events) :
    WriteSafe crypto i (fun _ _ => True) (AccountProc.saveUser changed >>= fun _ => rest) w := by
  intro w' hinv _ hown hask
  obtain ⟨hinv', hkept⟩ := write_act crypto _ hinv hask (hsaves w' hown)
  refine ⟨hinv', hkept, ?_⟩
  generalize ((accountMachine crypto).exec i (.saveUser changed.1 changed.2) w'.state).2 = saved
  cases (saved : Bool) with
  | true => exact writeSafe_of_asks hrest
  | false => trivial

/-- An operation other than a save: its caller knows afterwards what it was answered, and on which
    state. -/
theorem safe_read {β : Type} {op : AccountOp} {next : op.Answer → AccountProc β}
    (hop : ∀ user events, op ≠ .saveUser user events)
    (hnext : ∀ w' answer, (∀ event ∈ w.own i, event ∈ w'.own i) → (∃ event ∈ w'.own i,
      event.op = op ∧ answer = ((accountMachine crypto).exec i op event.before).2) →
      WriteSafe crypto i (fun _ _ => True) (next answer) w') :
    WriteSafe crypto i (fun _ _ => True) (.call op next) w := by
  intro w' hinv _ hown hask
  obtain ⟨hinv', hkept⟩ := write_act crypto op hinv hask fun user events heq =>
    absurd heq (hop user events)
  refine ⟨hinv', hkept, hnext _ _ (fun event hevent => ?_) ?_⟩
  · rw [Machine.own_act, if_pos rfl, hown]
    exact List.mem_cons_of_mem _ hevent
  · refine ⟨⟨i, op, w'.state⟩, ?_, rfl, rfl⟩
    rw [Machine.own_act, if_pos rfl]
    exact List.mem_cons_self ..

theorem safe_reset_writes (command : ResetPasswordCommand) (salt : String) :
    WriteSafe crypto i (fun _ _ => True) (ResetPasswordHandler.execute crypto command salt) w := by
  unfold ResetPasswordHandler.execute
  cases Password.create command.password with
  | error e => trivial
  | ok password =>
  refine safe_read (by simp) fun w₁ token _ _ => safe_read (by simp) fun w₂ now _ _ => ?_
  dsimp only [Proc.bind]
  cases Option.filter (fun token : MailedToken => token.isValid now) token with
  | none => trivial
  | some token =>
  refine safe_read (by simp) fun w₃ found _ hfound => ?_
  cases (found : Option User) with
  | none => trivial
  | some user =>
  obtain ⟨read, hread, hop, hanswer⟩ := hfound
  refine safe_read (by simp) fun w₄ passwordHash hstays _ => ?_
  refine safe_saveUser (fun w' hown => ?_) ⟨by simp, fun _ => ⟨by simp, fun _ => trivial⟩⟩
  rintro _ _ heq
  obtain ⟨rfl, rfl⟩ := AccountOp.saveUser.inj heq
  refine ⟨read, hown ▸ hstays read hread, user, ?_, rfl, ?_⟩
  · unfold readUser
    rw [hop]
    exact hanswer.symm
  · rw [if_pos (by rfl)]
    rfl

theorem safe_verify_writes (command : VerifyEmailCommand) :
    WriteSafe crypto i (fun _ _ => True) (VerifyEmailHandler.execute crypto command) w := by
  refine safe_read (by simp) fun w₁ token _ _ => safe_read (by simp) fun w₂ now _ _ => ?_
  dsimp only [Proc.bind]
  cases Option.filter (fun token : MailedToken => token.isValid now) token with
  | none => trivial
  | some token =>
  refine safe_read (by simp) fun w₃ found _ hfound => ?_
  cases (found : Option User) with
  | none => trivial
  | some user =>
  obtain ⟨read, hread, hop, hanswer⟩ := hfound
  refine safe_saveUser (fun w' hown => ?_) ⟨by simp, fun _ => trivial⟩
  rintro _ _ heq
  obtain ⟨rfl, rfl⟩ := AccountOp.saveUser.inj heq
  refine ⟨read, hown ▸ hread, user, ?_, (user.verifyEmail_id now).symm, ?_⟩
  · unfold readUser
    rw [hop]
    exact hanswer.symm
  · have hsame : ¬ changesPassword (user.verifyEmail now).2 = true := fun hchanges =>
      Bool.false_ne_true ((changesPassword_verifyEmail user now).symm.trans hchanges)
    rw [if_neg hsame]
    exact ⟨user.verifyEmail_passwordHash now, user.verifyEmail_status now⟩

end Calls

/-- The outline. -/
def writesOutline (crypto : AccountCrypto) : Outline (accountMachine crypto) writtenAsRead where
  Inv := LastStored
  Rely := ActiveKept
  refl := ActiveKept.refl
  trans := ActiveKept.trans
  happen _ _ h _ := ⟨h, ActiveKept.refl _⟩
  Post _ _ _ _ _ := True
  safe command i w _ _ _ := by
    cases command with
    | resetPassword command salt =>
      show WriteSafe crypto i _ (ResetPasswordHandler.execute _ _ _ >>= _) _
      rw [WriteSafe, safe_bind]
      exact (safe_reset_writes command salt).mono fun _ _ _ => trivial
    | verifyEmail command =>
      show WriteSafe crypto i _ (VerifyEmailHandler.execute _ _ >>= _) _
      rw [WriteSafe, safe_bind]
      exact (safe_verify_writes command).mono fun _ _ _ => trivial

/-- In a run the saves of resets are the changes of passwords. -/
theorem storesChange_iff {crypto : AccountCrypto} {store : AccountStore} {moves : AccountMoves}
    {event : AccountEvent} (hevent : event ∈ (accountRun crypto store moves).world.log)
    {userId : UserId} {hash : String} :
    StoresChange event userId hash ↔
      ResetStores (accountRun crypto store moves) event userId hash := by
  obtain ⟨call, hcall, hasks⟩ := Machine.caller_of_asks (asks_account crypto) hevent
  constructor
  · rintro ⟨user, events, hop, hchanges, hid, hhash, hsaved⟩
    refine ⟨⟨user, events, hop, hid, hhash, hsaved⟩, call, ?_⟩
    rw [hop] at hasks
    cases hcommand : call.command with
    | resetPassword command salt => exact ⟨command, salt, hcall, rfl⟩
    | verifyEmail command =>
      rw [hcommand] at hasks
      exact absurd (hchanges.symm.trans hasks) nofun
  · rintro ⟨⟨user, events, hop, hid, hhash, hsaved⟩, call', command, salt, hcall', hcommand⟩
    obtain rfl := Option.some.inj (hcall.symm.trans hcall')
    rw [hop, hcommand] at hasks
    exact ⟨user, events, hop, hasks, hid, hhash, hsaved⟩

/-- In every run whose writes undo nothing: the stored hash is the one that the last reset has
    stored, and an active user stays active. -/
theorem password_changes_kept (crypto : AccountCrypto) (store : AccountStore)
    (moves : AccountMoves)
    (hok : (accountMachine crypto).Along writtenAsRead ⟨⟨store, []⟩, []⟩ moves) :
    ChangesKept crypto store moves := by
  have hinit : (writesOutline crypto).Good ⟨⟨store, []⟩, []⟩ :=
    Outline.Good.init (fun later event earlier _ _ hlog => by simp at hlog) rfl
  have hgood := (hinit.run hok).1
  refine ⟨?_, ?_⟩
  · intro later event earlier userId hash hlog hstores hlast
    have hmem : ∀ other ∈ later ++ event :: earlier,
        other ∈ (accountRun crypto store moves).world.log := fun other hother => hlog ▸ hother
    refine hgood.inv later event earlier userId hash hlog
      ((storesChange_iff (hmem event (by simp))).mpr hstores) fun other hother hash' hchange => ?_
    exact hlast other hother hash'
      ((storesChange_iff (hmem other (List.mem_append_left _ hother))).mp hchange)
  · rintro before after rfl
    obtain ⟨hbefore, hafter⟩ := Machine.along_append.mp hok
    have hrely := ((hinit.run hbefore).1.run hafter).2
    rw [accountRun, accountRun, Machine.run_append]
    exact hrely

/-! ### Both at once -/

def verifyAnn : AccountCommand := .verifyEmail ⟨"verification-token"⟩

def resetThenVerify : AccountMoves :=
  .start resetFirst :: List.replicate 7 (.run 0) ++ .start verifyAnn :: List.replicate 5 (.run 1)

/-- The verification has read the user before the reset saves it, and saves it afterwards. -/
def resetInsideVerify : AccountMoves :=
  .start verifyAnn :: List.replicate 3 (.run 0) ++
    .start resetFirst :: List.replicate 7 (.run 1) ++ List.replicate 2 (.run 0)

theorem password_changes_kept_resetThenVerify :
    ChangesKept plainCrypto annAccount resetThenVerify :=
  password_changes_kept plainCrypto annAccount resetThenVerify (by decide +kernel)

/-- The reset has returned `ok`, and the old password is the one that is stored. -/
theorem password_change_lost : ¬ ChangesKept plainCrypto annAccount resetInsideVerify := by
  rintro ⟨hkept, -⟩
  have hlater : ∀ other ∈ (accountRun plainCrypto annAccount resetInsideVerify).world.log.take 4,
      ∀ hash', ¬ ResetStores (accountRun plainCrypto annAccount resetInsideVerify) other ⟨"ann"⟩
        hash' := by
    rintro other hother hash' ⟨⟨user, events, hop, -⟩, call, command, salt, hcall, hcommand⟩
    rcases List.mem_cons.mp hother with rfl | hother
    · cases hop
    rcases List.mem_cons.mp hother with rfl | hother
    · -- the save of the verification
      obtain rfl := Option.some.inj hcall
      cases hcommand
    rcases List.mem_cons.mp hother with rfl | hother
    · cases hop
    rcases List.mem_cons.mp hother with rfl | hother
    · cases hop
    · cases hother
  obtain ⟨row, hrow, hhash⟩ := hkept _ _ _ ⟨"ann"⟩ "first-password1"
    (rfl : _ = (accountRun plainCrypto annAccount resetInsideVerify).world.log.take 4 ++ _ :: _)
    ⟨⟨_, _, rfl, rfl, rfl, rfl⟩, _, _, _, rfl, rfl⟩ hlater
  obtain rfl := Option.some.inj (hrow.symm.trans rfl)
  exact absurd hhash (by decide)

end AccessCore
