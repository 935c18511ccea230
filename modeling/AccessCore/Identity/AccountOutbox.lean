/-
  What the outbox tells of the accounts.

  A save of a user writes the row and the events the user has collected in one transaction.  The
  outbox is read by others, who have nothing but the events: `replay` is what such a reader knows
  after the first events, an account for each registration, active once its address is verified.

  A save that is announced keeps the reader's list in step with the rows of the table
  (`replay_register`, `replay_change`); that every save of every handler is one is shown in
  `Identity.AccountProvenance`.
-/
import AccessCore.Identity.Registration

namespace AccessCore

/-- What a reader of the outbox knows of an account. -/
structure AccountSummary where
  id : String
  email : String
  createdAt : Int
  active : Bool
deriving DecidableEq, Repr

namespace AccountSummary

def ofUser (user : User) : AccountSummary :=
  ⟨user.id.value, user.email, user.createdAt, user.status = .active⟩

/-- The account of the id, verified. -/
def activate (id : String) (account : AccountSummary) : AccountSummary :=
  if account.id = id then { account with active := true } else account

end AccountSummary

/-- What one event adds. -/
def announce (accounts : List AccountSummary) (event : DomainEvent) : List AccountSummary :=
  if event.type = "identity.user_registered" then
    accounts ++ [⟨event.aggregateId, (event.payload.lookup "email").getD "",
      event.occurredAt, false⟩]
  else if event.type = "identity.email_verified" then
    accounts.map (AccountSummary.activate event.aggregateId)
  else accounts

/-- The accounts that the events tell of. -/
def replay (events : List DomainEvent) : List AccountSummary := events.foldl announce []

theorem replay_append (events more : List DomainEvent) :
    replay (events ++ more) = more.foldl announce (replay events) :=
  List.foldl_append

/-- The events of a save that makes the user active. -/
def TellsActive (id : UserId) (events : List DomainEvent) : Prop :=
  ∀ accounts, events.foldl announce accounts = accounts.map (AccountSummary.activate id.value)

/-- The events of a save that a reader of the outbox need not know of. -/
def TellsNothing (events : List DomainEvent) : Prop :=
  ∀ accounts, events.foldl announce accounts = accounts

theorem tellsNothing_changePassword (user : User) (hash : String) (now : Int) :
    TellsNothing (user.changePassword hash now).2 := fun _ => rfl

/-- A verification tells of itself, or of an active user. -/
theorem announced_verifyEmail (user : User) (now : Int) :
    TellsActive user.id (user.verifyEmail now).2 ∨
      TellsNothing (user.verifyEmail now).2 ∧ user.status = .active := by
  unfold User.verifyEmail
  split_ifs with hactive
  · exact Or.inr ⟨fun _ => rfl, hactive⟩
  · exact Or.inl fun _ => rfl

theorem UserId.eq_of_value {a b : UserId} (h : a.value = b.value) : a = b := by
  cases a
  cases b
  exact congrArg UserId.mk h

namespace AccountStore

/-- A reader of the outbox knows the accounts of the table. -/
def Announced (store : AccountStore) : Prop :=
  replay store.outbox = store.users.rows.map AccountSummary.ofUser

variable {store : AccountStore}

theorem Announced.of_same {store' : AccountStore} (h : store.Announced)
    (houtbox : store'.outbox = store.outbox) (husers : store'.users = store.users) :
    store'.Announced := by
  unfold Announced
  rw [houtbox, husers]
  exact h

/-- A registration with a new id. -/
theorem replay_register {id : UserId} {email hash : String} {now : Int}
    {new : User × List DomainEvent} (hnew : User.register id email hash now = new)
    (h : store.Announced) (hfresh : store.users.get new.1.id = none) :
    (store.saveUser new.1 new.2).1.Announced := by
  unfold saveUser
  split_ifs with htaken
  · exact h
  · have hrows := Table.rows_upsert_of_get_none mergeUser_keeps hfresh
    show replay (store.outbox ++ new.2) =
      (store.users.upsert mergeUser mergeUser_keeps new.1).rows.map _
    rw [replay_append, h, hrows, List.map_append, ← hnew]
    rfl

/-- Saving an active user changes the status of the row, if anything that is told. -/
theorem summary_mergeUser {row user : User} (hactive : user.status = .active) :
    AccountSummary.ofUser (mergeUser row user) =
      (AccountSummary.ofUser row).activate row.id.value := by
  simp [AccountSummary.ofUser, AccountSummary.activate, mergeUser, hactive]

/-- A save of an active user over its row. -/
theorem replay_change {user row : User} {events : List DomainEvent} (h : store.Announced)
    (hrow : store.users.get user.id = some row) (hactive : user.status = .active)
    (hevents : TellsActive user.id events ∨ TellsNothing events ∧ row.status = .active) :
    (store.saveUser user events).1.Announced := by
  unfold saveUser
  split_ifs with htaken
  · exact h
  have hrows := Table.rows_upsert_of_get mergeUser_keeps hrow
  have hsaved : (store.users.upsert mergeUser mergeUser_keeps user).rows.map AccountSummary.ofUser =
      (store.users.rows.map AccountSummary.ofUser).map (AccountSummary.activate user.id.value) := by
    rw [hrows, List.map_map, List.map_map]
    refine List.map_congr_left fun old _ => ?_
    show AccountSummary.ofUser (if old.id = user.id then mergeUser old user else old) =
      (AccountSummary.ofUser old).activate user.id.value
    split_ifs with hid
    · rw [summary_mergeUser hactive, hid]
    · have hother : ¬ old.id.value = user.id.value := fun heq => hid (UserId.eq_of_value heq)
      exact (if_neg hother).symm
  show replay (store.outbox ++ events) =
    (store.users.upsert mergeUser mergeUser_keeps user).rows.map _
  rw [replay_append, h, hsaved]
  rcases hevents with htells | ⟨hnothing, hwas⟩
  · exact htells _
  · -- the row was active before
    rw [hnothing, List.map_map]
    refine List.map_congr_left fun old hold => ?_
    show AccountSummary.ofUser old = (AccountSummary.ofUser old).activate user.id.value
    unfold AccountSummary.activate
    split_ifs with hid
    · obtain ⟨hmem, hkey⟩ := Table.mem_of_get hrow
      have hsame : old = row := Table.eq_of_key hold hmem
        (by rw [hkey]; exact UserId.eq_of_value hid)
      rw [hsame]
      simp [AccountSummary.ofUser, hwas]
    · rfl

end AccountStore

end AccessCore
