/-
  What calls without step-up do to an active second factor.

  Enrolling revokes the credential it read as pending, and activating makes it active; both write
  the row whatever it has become.  `StillPending` says that it has not been activated in between.
  Along runs whose saves all find it so, an active credential stays active, and recovery codes are
  only issued by the call that activated it (`factor_kept`).
-/
import AccessCore.Identity.CredentialLifecycle

namespace AccessCore

open Interleave

namespace IdentityStore

/-- A user's credential is active. -/
def IsActive (store : IdentityStore) (userId : UserId) (id : String) : Prop :=
  ∃ row ∈ store.mfaCredentials.get id, row.userId = userId ∧ row.status = .active

instance (store : IdentityStore) (userId : UserId) (id : String) :
    Decidable (store.IsActive userId id) := by
  unfold IsActive
  infer_instance

/-- What the unique index `mfa_active_totp_per_user` says of the table. -/
def UniqueActive (store : IdentityStore) : Prop :=
  ∀ userId id id', store.IsActive userId id → store.IsActive userId id' → id = id'

/-- The credentials of `store` keep their owners, and active ones are still active. -/
def FactorsKept (store store' : IdentityStore) : Prop :=
  ∀ id, ∀ row ∈ store.mfaCredentials.get id, ∃ row' ∈ store'.mfaCredentials.get id,
    row'.userId = row.userId ∧ (row.status = .active → row'.status = .active)

end IdentityStore

/-- The calls of one user without step-up. -/
def MfaCommand.WithoutStepUp (userId : UserId) : MfaCommand → Prop
  | .verify user _ => user = userId
  | .enroll _ user _ _ => user = userId
  | .activate input _ => input.userId = userId ∧ input.steppedUp = false
  | .disable _ => False

/-- Whether a caller has read a credential as pending. -/
def readPending (w : MfaWorld) (i : Nat) (id : String) : Bool :=
  (w.own i).any fun event => match event.op with
    | .findTotp userId .pending => (event.before.findByStatus userId .pending).any (·.id = id)
    | _ => false

/-- A caller's save of a credential it has read as pending does not find it active. -/
def StillPending (i : Nat) (op : IdentityOp) (w : MfaWorld) : Prop :=
  ∀ credential ∈ op.saved, readPending w i credential.id = true →
    ∀ row ∈ w.state.mfaCredentials.get credential.id, row.status ≠ .active

/-- Calls of one user without step-up, whose saves find pending what they have read as pending. -/
def withoutStepUp (userId : UserId) : Conduct MfaCommand Int IdentityOp IdentityStore where
  start command _ := command.WithoutStepUp userId
  ask := StillPending
  event _ _ := True

instance (userId : UserId) (command : MfaCommand) : Decidable (command.WithoutStepUp userId) := by
  unfold MfaCommand.WithoutStepUp
  cases command <;> infer_instance

instance (i : Nat) (op : IdentityOp) (w : MfaWorld) : Decidable (StillPending i op w) := by
  unfold StillPending
  infer_instance

instance (crypto : Crypto) (userId : UserId) (sys : MfaSystem) (moves : MfaMoves) :
    Decidable ((mfaMachine crypto).Along (withoutStepUp userId) sys moves) :=
  have : ∀ c w, Decidable ((withoutStepUp userId).start c w) := fun command _ =>
    inferInstanceAs (Decidable (command.WithoutStepUp userId))
  have : ∀ i op w, Decidable ((withoutStepUp userId).ask i op w) := fun i op w =>
    inferInstanceAs (Decidable (StillPending i op w))
  have : ∀ e w, Decidable ((withoutStepUp userId).event e w) := fun _ _ => .isTrue trivial
  Machine.Along.decidable (mfaMachine crypto) (withoutStepUp userId) sys moves

/-- An event that made a credential active which was not. -/
def Activates (event : Event IdentityOp IdentityStore) (id : String) : Prop :=
  ∃ credential, event.op = .saveCredential credential ∧ credential.id = id ∧
    credential.status = .active ∧ (event.before.saveCredential credential).2 = true ∧
    ∀ row ∈ event.before.mfaCredentials.get id, row.status ≠ .active

/-- From any moment on at which a credential of the user is active, it stays active, and recovery
    codes are replaced by the call that has made it active and by no other. -/
def FactorKept (crypto : Crypto) (store : IdentityStore) (userId : UserId) (moves : MfaMoves) :
    Prop :=
  ∀ before after, moves = before ++ after →
    ∀ id, (mfaRun crypto store before).world.state.IsActive userId id →
      (mfaRun crypto store moves).world.state.IsActive userId id ∧
      ∃ later, (mfaRun crypto store moves).world.log =
          later ++ (mfaRun crypto store before).world.log ∧
        ∀ event ∈ later, event.op.replacesCodes = true →
          ∃ made ∈ (mfaRun crypto store before).world.own event.caller, Activates made id

/-! ## What a save keeps -/

namespace IdentityStore

variable {store : IdentityStore} {userId : UserId} {id : String}

theorem admits_of_saved {credential : MfaCredential}
    (h : (store.saveCredential credential).2 = true) :
    admits store.mfaCredentials.rows (store.savedRow credential) = true := by
  unfold saveCredential at h
  split_ifs at h with hadmits
  exact hadmits

theorem get_of_saved {credential : MfaCredential}
    (h : (store.saveCredential credential).2 = true) :
    (store.saveCredential credential).1.mfaCredentials.get credential.id =
      some (store.savedRow credential) := by
  rcases store.saveCredential_cases credential with hsame | ⟨-, hget⟩
  · rw [hsame] at h
    cases h
  · rw [hget, if_pos rfl]

@[simp] theorem savedRow_id (credential : MfaCredential) :
    (store.savedRow credential).id = credential.id := by
  unfold savedRow
  cases hget : store.mfaCredentials.get credential.id with
  | none => rfl
  | some row => exact (Table.mem_of_get hget).2

/-- A row that is stored already keeps its owner. -/
theorem savedRow_userId {credential row : MfaCredential}
    (h : store.mfaCredentials.get credential.id = some row) :
    (store.savedRow credential).userId = row.userId := by
  unfold savedRow
  rw [h]
  rfl

theorem isActive_of_get {row : MfaCredential} (h : store.mfaCredentials.get id = some row)
    (huser : row.userId = userId) (hstatus : row.status = .active) : store.IsActive userId id :=
  ⟨row, h, huser, hstatus⟩

theorem isActive_congr {store' : IdentityStore}
    (h : store'.mfaCredentials.get id = store.mfaCredentials.get id) :
    store'.IsActive userId id ↔ store.IsActive userId id := by
  unfold IsActive
  rw [h]

/-- After a save that makes a row active, no other row of its owner was. -/
theorem eq_of_saved_active {credential : MfaCredential}
    (hsaved : (store.saveCredential credential).2 = true) (hactive : credential.status = .active)
    (howner : (store.savedRow credential).userId = userId) (hother : store.IsActive userId id) :
    id = credential.id := by
  obtain ⟨row, hrow, huser, hstatus⟩ := hother
  obtain ⟨hmem, rfl⟩ := Table.mem_of_get hrow
  have hadmits := admits_of_saved hsaved
  unfold admits at hadmits
  rw [savedRow_status, hactive] at hadmits
  have hrows : ∀ other ∈ store.mfaCredentials.rows, (other.id = credential.id ∨
      other.userId ≠ (store.savedRow credential).userId) ∨ other.status ≠ .active := by
    simpa using hadmits
  rcases hrows row hmem with (hid | howner') | hstatus'
  · exact hid
  · exact absurd (huser.trans howner.symm) howner'
  · exact absurd hstatus hstatus'

/-- The unique index stays. -/
theorem UniqueActive.save (h : store.UniqueActive) (credential : MfaCredential) :
    (store.saveCredential credential).1.UniqueActive := by
  rcases store.saveCredential_cases credential with hsame | ⟨hsaved, hget⟩
  · rw [hsame]
    exact h
  -- a row that is active under another id than the saved one was active before
  have hbefore : ∀ userId id, id ≠ credential.id →
      (store.saveCredential credential).1.IsActive userId id → store.IsActive userId id := by
    intro userId id hne hactive
    have hframe := hget id
    rw [if_neg hne] at hframe
    exact (isActive_congr hframe).mp hactive
  have hsavedRow : ∀ userId, (store.saveCredential credential).1.IsActive userId credential.id →
      (store.savedRow credential).userId = userId ∧ credential.status = .active := by
    rintro userId ⟨row, hrow, huser, hstatus⟩
    rw [Option.mem_def, hget, if_pos rfl] at hrow
    obtain rfl := Option.some.inj hrow
    rw [savedRow_status] at hstatus
    exact ⟨huser, hstatus⟩
  intro userId id id' hid hid'
  by_cases hcase : id = credential.id
  · subst hcase
    obtain ⟨howner, hactive⟩ := hsavedRow userId hid
    by_cases hcase' : id' = credential.id
    · exact hcase'.symm
    · exact (eq_of_saved_active hsaved hactive howner (hbefore userId id' hcase' hid')).symm
  · by_cases hcase' : id' = credential.id
    · subst hcase'
      obtain ⟨howner, hactive⟩ := hsavedRow userId hid'
      exact eq_of_saved_active hsaved hactive howner (hbefore userId id hcase hid)
    · exact h userId id id' (hbefore userId id hcase hid) (hbefore userId id' hcase' hid')

namespace FactorsKept

theorem refl (store : IdentityStore) : store.FactorsKept store :=
  fun _ row hrow => ⟨row, hrow, rfl, id⟩

theorem trans {a b c : IdentityStore} (hab : a.FactorsKept b) (hbc : b.FactorsKept c) :
    a.FactorsKept c := by
  intro id row hrow
  obtain ⟨row', hrow', howner, hactive⟩ := hab id row hrow
  obtain ⟨row'', hrow'', howner', hactive'⟩ := hbc id row' hrow'
  exact ⟨row'', hrow'', howner'.trans howner, fun h => hactive' (hactive h)⟩

theorem isActive {store' : IdentityStore} (h : store.FactorsKept store')
    (hactive : store.IsActive userId id) : store'.IsActive userId id := by
  obtain ⟨row, hrow, huser, hstatus⟩ := hactive
  obtain ⟨row', hrow', howner, hkept⟩ := h id row hrow
  exact ⟨row', hrow', howner.trans huser, hkept hstatus⟩

/-- A save that takes a credential out of use does not find it active. -/
theorem save {credential : MfaCredential} (h : credential.status ≠ .active →
      ∀ row ∈ store.mfaCredentials.get credential.id, row.status ≠ .active) :
    store.FactorsKept (store.saveCredential credential).1 := by
  rcases store.saveCredential_cases credential with hsame | ⟨_, hget⟩
  · rw [hsame]
    exact refl store
  · intro id row hrow
    rw [hget]
    by_cases hid : id = credential.id
    · subst hid
      rw [if_pos rfl]
      refine ⟨_, rfl, savedRow_userId hrow, fun hactive => ?_⟩
      rw [savedRow_status]
      by_contra hstatus
      exact h hstatus row hrow hactive
    · rw [if_neg hid]
      exact ⟨row, hrow, rfl, fun hactive => hactive⟩

end FactorsKept

end IdentityStore

/-! ## The calls -/

/-- What every step keeps: active credentials, and the codes unless the caller has activated. -/
structure FactorRely (userId : UserId) (w w' : MfaWorld) : Prop where
  kept : w.state.FactorsKept w'.state
  issued : ∃ later, w'.log = later ++ w.log ∧
    ∀ event ∈ later, ∀ id, w.state.IsActive userId id → event.before.IsActive userId id ∧
      (event.op.replacesCodes = true → ∃ made ∈ w'.own event.caller, Activates made id)

namespace FactorRely

variable {userId : UserId}

theorem refl (w : MfaWorld) : FactorRely userId w w :=
  ⟨.refl _, [], rfl, by simp⟩

theorem own_mono {w w' : MfaWorld} {later : List (Event IdentityOp IdentityStore)}
    (h : w'.log = later ++ w.log) (i : Nat) : ∀ event ∈ w.own i, event ∈ w'.own i := by
  intro event hevent
  unfold World.own at hevent ⊢
  rw [h, List.filter_append]
  exact List.mem_append_right _ hevent

theorem trans {u v w : MfaWorld} (huv : FactorRely userId u v) (hvw : FactorRely userId v w) :
    FactorRely userId u w := by
  obtain ⟨hkept, later, hlog, hlater⟩ := huv
  obtain ⟨hkept', later', hlog', hlater'⟩ := hvw
  refine ⟨hkept.trans hkept', later' ++ later, by rw [hlog', hlog, List.append_assoc], ?_⟩
  intro event hevent id hactive
  rcases List.mem_append.mp hevent with hevent | hevent
  · exact hlater' event hevent id (hkept.isActive hactive)
  · obtain ⟨hbefore, hmade⟩ := hlater event hevent id hactive
    refine ⟨hbefore, fun hreplaces => ?_⟩
    obtain ⟨made, hown, hactivates⟩ := hmade hreplaces
    exact ⟨made, own_mono hlog' _ made hown, hactivates⟩

/-- One operation. -/
theorem act {crypto : Crypto} {i : Nat} {op : IdentityOp} {w : MfaWorld}
    (hkept : w.state.FactorsKept (w.state.exec crypto op).1)
    (hreplaces : op.replacesCodes = true → ∀ id, w.state.IsActive userId id →
      ∃ made ∈ w.own i, Activates made id) :
    FactorRely userId w ((mfaMachine crypto).act i op w) := by
  refine ⟨hkept, [⟨i, op, w.state⟩], rfl, ?_⟩
  intro event hevent id hactive
  obtain rfl := List.mem_singleton.mp hevent
  refine ⟨hactive, fun h => ?_⟩
  obtain ⟨made, hown, hactivates⟩ := hreplaces h id hactive
  refine ⟨made, ?_, hactivates⟩
  show made ∈ ((mfaMachine crypto).act i op w).own i
  rw [Machine.own_act, if_pos rfl]
  exact List.mem_cons_of_mem _ hown

end FactorRely

/-- The same calls, which save new credentials under new ids. -/
def withNewIds (userId : UserId) : Conduct MfaCommand Int IdentityOp IdentityStore :=
  { withoutStepUp userId with ask := fun i op w => FreshId w.state op ∧ StillPending i op w }

/-- The invariant and the relation of the outline. -/
abbrev FactorSafe (crypto : Crypto) (userId : UserId) (i : Nat) {β : Type}
    (Post : β → MfaWorld → Prop) : IdentityProc β → MfaWorld → Prop :=
  Safe (mfaMachine crypto) (withNewIds userId) (fun w => w.state.UniqueActive)
    (FactorRely userId) i Post

section Calls

variable {crypto : Crypto} {userId : UserId} {i : Nat} {w : MfaWorld}

variable (crypto i) in
/-- An operation that saves no credential. -/
theorem factorRely_unsaved (op : IdentityOp) (hunique : w.state.UniqueActive)
    (hop : op.saved = none)
    (hreplaces : op.replacesCodes = true → ∀ id, w.state.IsActive userId id →
      ∃ made ∈ w.own i, Activates made id) :
    ((mfaMachine crypto).act i op w).state.UniqueActive ∧
      FactorRely userId w ((mfaMachine crypto).act i op w) := by
  have hsame : ((mfaMachine crypto).act i op w).state.mfaCredentials = w.state.mfaCredentials :=
    IdentityStore.exec_mfaCredentials hop
  have hget : ∀ id, ((mfaMachine crypto).act i op w).state.mfaCredentials.get id =
      w.state.mfaCredentials.get id := fun id => by rw [hsame]
  refine ⟨fun user id id' hid hid' => ?_, FactorRely.act (fun id row hrow => ?_) hreplaces⟩
  · exact hunique user id id' ((IdentityStore.isActive_congr (hget id)).mp hid)
      ((IdentityStore.isActive_congr (hget id')).mp hid')
  · rw [IdentityStore.exec_mfaCredentials hop]
    exact IdentityStore.FactorsKept.refl _ id row hrow

variable (crypto) in
/-- A save, when it revokes nothing but what its caller has read as pending. -/
theorem factorRely_save {credential : MfaCredential} (hunique : w.state.UniqueActive)
    (hask : (withNewIds userId).ask i (.saveCredential credential) w)
    (hread : credential.status = .revoked → readPending w i credential.id = true) :
    ((mfaMachine crypto).act i (.saveCredential credential) w).state.UniqueActive ∧
      FactorRely userId w ((mfaMachine crypto).act i (.saveCredential credential) w) := by
  obtain ⟨hfresh, hpending⟩ := hask
  refine ⟨hunique.save credential, FactorRely.act (.save fun hstatus row hrow => ?_) nofun⟩
  cases hcase : credential.status with
  | pending =>
    have hnone := hfresh credential rfl hcase
    rw [hnone] at hrow
    cases hrow
  | active => exact absurd hcase hstatus
  | revoked => exact hpending credential rfl (hread hcase) row hrow

/-- What `verify` and `enroll` ask for: no codes are issued, and what is revoked is known. -/
def Unissued (known : String → Prop) (op : IdentityOp) : Prop :=
  op.replacesCodes = false ∧
    ∀ credential ∈ op.saved, credential.status = .revoked → known credential.id

theorem safe_unissued (known : String → Prop) {β : Type} {p : IdentityProc β}
    (hp : p.Asks (Unissued known)) (hknown : ∀ id, known id → readPending w i id = true) :
    FactorSafe crypto userId i (fun _ _ => True) p w := by
  have hkeep : FactorSafe crypto userId i
      (fun _ w => ∀ id, known id → readPending w i id = true) p w := by
    refine Safe.keeping (fun w w' hread _ _ hown id hid => ?_) ?_ hp hknown
    · have := hread id hid
      unfold readPending at this ⊢
      rwa [hown]
    · rintro op w ⟨hreplaces, hsaves⟩ hunique hread hask
      have hlater : ∀ id, known id →
          readPending ((mfaMachine crypto).act i op w) i id = true := by
        intro id hid
        have := hread id hid
        unfold readPending at this ⊢
        rw [Machine.own_act, if_pos rfl, List.any_cons, this, Bool.or_true]
      have hstep : ((mfaMachine crypto).act i op w).state.UniqueActive ∧
          FactorRely userId w ((mfaMachine crypto).act i op w) := by
        cases hop : op.saved with
        | none => exact factorRely_unsaved crypto i op hunique hop (by rw [hreplaces]; nofun)
        | some credential =>
          obtain rfl := IdentityOp.eq_of_saved hop
          exact factorRely_save crypto hunique hask fun hstatus =>
            hread _ (hsaves credential rfl hstatus)
      exact ⟨hstep.1, hstep.2, hlater⟩
  exact hkeep.mono fun _ _ _ => trivial

/-- An operation that neither saves a credential nor issues codes. -/
theorem unissued_of {known : String → Prop} {op : IdentityOp} (hsaved : op.saved = none)
    (hreplaces : op.replacesCodes = false) : Unissued known op := by
  refine ⟨hreplaces, ?_⟩
  rw [hsaved]
  nofun

theorem unissued_save {known : String → Prop} {credential : MfaCredential}
    (h : credential.status = .revoked → known credential.id) :
    Unissued known (.saveCredential credential) := by
  refine ⟨rfl, fun saved hsaved => ?_⟩
  obtain rfl := Option.some.inj hsaved
  exact h

theorem unissued_verify {known : String → Prop} (proof : SecondFactorProof) :
    (IdentitySecondFactor.verify crypto userId proof).Asks (Unissued known) := by
  cases proof with
  | recovery value => exact asks_redeem (fun _ => unissued_of) value
  | totp value =>
    refine ⟨unissued_of rfl rfl, fun found => ?_⟩
    cases (found : Option MfaCredential) with
    | none => trivial
    | some credential =>
      -- what is saved is the credential in use
      refine asks_verifyFound (fun _ => unissued_of) fun used _ hactive => ?_
      exact unissued_save fun hstatus => by rw [hactive] at hstatus; cases hstatus

variable (crypto i) in
/-- The credential a caller finds pending is one it has read as pending. -/
theorem readPending_act {credential : MfaCredential}
    (h : w.state.findByStatus userId .pending = some credential) :
    readPending ((mfaMachine crypto).act i (.findTotp userId .pending) w) i credential.id =
      true := by
  unfold readPending
  rw [Machine.own_act, if_pos rfl, List.any_cons]
  show (w.state.findByStatus userId .pending).any (·.id = credential.id) || _
  rw [h]
  simp

theorem safe_enroll (issuer newId : String) (newSecret : List UInt8) :
    FactorSafe crypto userId i (fun _ _ => True)
      (EnrollMfaHandler.execute issuer userId newId newSecret) w := by
  have hrest : ∀ (known : String → Prop) (user : User) (now : Int),
      Proc.Asks (Unissued known) (do
        let secretCiphertext : String ← Proc.ask (IdentityOp.encrypt newSecret)
        MfaCredentials.save (MfaCredential.enroll newId userId secretCiphertext now)
        return Except.ok ⟨issuer, user.email, newSecret⟩ :
          IdentityProc (Except EnrollMfaError EnrollMfaResult)) := by
    intro known user now
    refine ⟨unissued_of rfl rfl, fun ciphertext => ?_⟩
    show Proc.Asks _ (MfaCredentials.save _ >>= _)
    exact Proc.asks_bind (fun _ => by trivial) (asks_save (unissued_save nofun))
  intro w₁ hunique₁ _ _ _
  obtain ⟨hinv₁, hrely₁⟩ : _ ∧ FactorRely userId w₁ _ :=
    factorRely_unsaved crypto i (.findUser userId) hunique₁ rfl (fun h => by cases h)
  refine ⟨hinv₁, hrely₁, ?_⟩
  generalize ((mfaMachine crypto).exec i (.findUser userId) w₁.state).2 = found
  cases (found : Option User) with
  | none => trivial
  | some user =>
    intro w₂ hunique₂ _ _ _
    obtain ⟨hinv₂, hrely₂⟩ : _ ∧ FactorRely userId w₂ _ :=
      factorRely_unsaved crypto i .now hunique₂ rfl (fun h => by cases h)
    refine ⟨hinv₂, hrely₂, ?_⟩
    intro w₃ hunique₃ _ _ _
    obtain ⟨hinv₃, hrely₃⟩ : _ ∧ FactorRely userId w₃ _ :=
      factorRely_unsaved crypto i (.findTotp userId .pending) hunique₃ rfl (fun h => by cases h)
    refine ⟨hinv₃, hrely₃, ?_⟩
    generalize hfound : ((mfaMachine crypto).exec i (.findTotp userId .pending) w₃.state).2 = found
    cases (found : Option MfaCredential) with
    | none =>
      exact safe_unissued (fun _ => False) (hrest _ user _) (fun _ => False.elim)
    | some superseded =>
      -- the credential it revokes is the one it has just read as pending
      refine safe_unissued (· = superseded.id) ?_ ?_
      · show Proc.Asks _ (MfaCredentials.save (superseded.revoke w₂.state.nowMs) >>= _)
        exact Proc.asks_bind (fun _ => hrest _ user _)
          (asks_save (unissued_save fun _ => superseded.revoke_id w₂.state.nowMs))
      · rintro id rfl
        exact readPending_act crypto i hfound

/-- What a call may do that has activated a credential: it is the only active one. -/
theorem safe_activated {β : Type} {p : IdentityProc β} (id : String)
    (hp : p.Asks fun op => op.saved = none) (hmade : ∃ made ∈ w.own i, Activates made id)
    (hactive : w.state.IsActive userId id) :
    FactorSafe crypto userId i (fun _ _ => True) p w := by
  have hkeep : FactorSafe crypto userId i (fun _ w => (∃ made ∈ w.own i, Activates made id) ∧
      w.state.IsActive userId id) p w := by
    refine Safe.keeping (fun w w' hkeep _ hrely hown => ?_) ?_ hp ⟨hmade, hactive⟩
    · rw [hown]
      exact ⟨hkeep.1, hrely.kept.isActive hkeep.2⟩
    · rintro op w hop hunique ⟨⟨made, hown, hactivates⟩, hactive⟩ _
      have hstep : ((mfaMachine crypto).act i op w).state.UniqueActive ∧
          FactorRely userId w ((mfaMachine crypto).act i op w) := by
        refine factorRely_unsaved crypto i op hunique hop fun _ id' hactive' => ?_
        obtain rfl := hunique userId id id' hactive hactive'
        exact ⟨made, hown, hactivates⟩
      refine ⟨hstep.1, hstep.2, ⟨made, ?_, hactivates⟩, hstep.2.kept.isActive hactive⟩
      rw [Machine.own_act, if_pos rfl]
      exact List.mem_cons_of_mem _ hown
  exact hkeep.mono fun _ _ _ => trivial

/-- A caller has read one of the user's credentials as pending. -/
def HasRead (userId : UserId) (i : Nat) (id : String) (w : MfaWorld) : Prop :=
  readPending w i id = true ∧ ∃ row ∈ w.state.mfaCredentials.get id, row.userId = userId

/-- What the others do, and its own reads, leave a caller with what it has read. -/
theorem safe_hasRead {β : Type} {p : IdentityProc β} {id : String}
    (hp : p.Asks fun op => op.saved = none ∧ op.replacesCodes = false)
    (hread : HasRead userId i id w) :
    FactorSafe crypto userId i (fun _ w => HasRead userId i id w) p w := by
  have hlater : ∀ w w' : MfaWorld, HasRead userId i id w → FactorRely userId w w' →
      (∀ event ∈ w.own i, event ∈ w'.own i) → HasRead userId i id w' := by
    rintro w w' ⟨hread, row, hrow, huser⟩ hrely hown
    obtain ⟨row', hrow', howner, -⟩ := hrely.kept id row hrow
    refine ⟨?_, row', hrow', howner.trans huser⟩
    obtain ⟨event, hevent, hpending⟩ := List.any_eq_true.mp hread
    exact List.any_eq_true.mpr ⟨event, hown event hevent, hpending⟩
  refine Safe.keeping (fun w w' hread _ hrely hown => ?_) ?_ hp hread
  · exact hlater w w' hread hrely fun event hevent => by rwa [hown]
  · rintro op w ⟨hsaved, hreplaces⟩ hunique hread _
    obtain ⟨hunique', hstep⟩ : _ ∧ FactorRely userId w ((mfaMachine crypto).act i op w) :=
      factorRely_unsaved crypto i op hunique hsaved (by rw [hreplaces]; nofun)
    refine ⟨hunique', hstep, hlater w _ hread hstep fun event hevent => ?_⟩
    rw [Machine.own_act, if_pos rfl]
    exact List.mem_cons_of_mem _ hevent

theorem safe_takeOver {input : ActivateMfaInput} {draws : List (String × List UInt8)}
    {pending : MfaCredential} {now step : Int} (h : HasRead userId i pending.id w) :
    FactorSafe crypto userId i (fun _ _ => True)
      (ActivateMfaHandler.takeOver crypto input draws pending now step) w := by
  obtain ⟨hread, row, hrow, huser⟩ := h
  unfold ActivateMfaHandler.takeOver
  cases hactivated : pending.activate now with
  | error message => trivial
  | ok activated =>
  show Safe _ _ _ _ i _ (IdentityProc.ofExcept (activated.registerUse step) >>= _) _
  cases hused : activated.registerUse step with
  | error message => trivial
  | ok used =>
  obtain ⟨hid, hstatus⟩ : used.id = pending.id ∧ used.status = .active := by
    obtain ⟨-, rfl⟩ := MfaCredential.activate_ok hactivated
    obtain ⟨-, -, rfl⟩ := MfaCredential.registerUse_ok hused
    exact ⟨rfl, rfl⟩
  intro w₁ hunique hrely hown hask
  have hstep := factorRely_save crypto hunique hask (by rw [hstatus]; nofun)
  refine ⟨hstep.1, hstep.2, ?_⟩
  generalize hsaved : ((mfaMachine crypto).exec i (.saveCredential used) w₁.state).2 = saved
  cases (saved : Bool) with
  | false => trivial
  | true =>
    -- the row was pending when it was saved, so this save has activated it
    obtain ⟨row', hrow', howner, -⟩ := hrely.kept pending.id row hrow
    rw [← hid] at hrow'
    have hread' : readPending w₁ i used.id = true := by
      rw [hid]
      unfold readPending at hread ⊢
      rwa [hown]
    have hmade := hask.2 used rfl hread'
    refine safe_activated used.id ?_ ?_ ?_
    · show Proc.Asks _ (RecoveryCodeIssuer.issue crypto input.userId draws >>= _)
      refine Proc.asks_bind (fun codes => ?_) (asks_issueCodes draws)
      exact ⟨rfl, fun _ => trivial⟩
    · refine ⟨⟨i, .saveCredential used, w₁.state⟩, ?_, used, rfl, rfl, hstatus, hsaved, hmade⟩
      rw [Machine.own_act, if_pos rfl]
      exact List.mem_cons_self ..
    · have hget := IdentityStore.get_of_saved hsaved
      refine IdentityStore.isActive_of_get hget ?_ ?_
      · rw [IdentityStore.savedRow_userId hrow', howner, huser]
      · rw [IdentityStore.savedRow_status, hstatus]

theorem safe_activate (input : ActivateMfaInput) (draws : List (String × List UInt8))
    (huser : input.userId = userId) (hstepped : input.steppedUp = false) :
    FactorSafe crypto userId i (fun _ _ => True) (ActivateMfaHandler.execute crypto input draws)
      w := by
  subst huser
  intro w₁ hunique₁ _ _ _
  obtain ⟨hinv₁, hrely₁⟩ : _ ∧ FactorRely input.userId w₁ _ :=
    factorRely_unsaved crypto i (.findTotp input.userId .pending) hunique₁ rfl nofun
  refine ⟨hinv₁, hrely₁, ?_⟩
  generalize hfound :
    ((mfaMachine crypto).exec i (.findTotp input.userId .pending) w₁.state).2 = found
  cases (found : Option MfaCredential) with
  | none => trivial
  | some pending =>
  have hread := readPending_act crypto i hfound
  obtain ⟨hrow, huser, -⟩ := IdentityStore.findByStatus_some hfound
  obtain ⟨row₁, hrow₁, howner₁, -⟩ := hrely₁.kept pending.id pending hrow
  have hread₁ : HasRead input.userId i pending.id
      ((mfaMachine crypto).act i (.findTotp input.userId .pending) w₁) :=
    ⟨hread, row₁, hrow₁, howner₁.trans huser⟩
  show Safe _ _ _ _ i _ (IdentityProc.now >>= _) _
  rw [safe_bind]
  refine (safe_hasRead (Proc.asks_ask ⟨rfl, rfl⟩) hread₁).mono fun now w₂ hread₂ => ?_
  rw [safe_bind]
  refine (safe_hasRead ?_ hread₂).mono fun secret w₃ hread₃ => ?_
  · refine ⟨⟨rfl, rfl⟩, fun secret => ?_⟩
    cases (secret : Option (List UInt8)) <;> trivial
  rw [safe_bind]
  refine (safe_hasRead (asks_ofExcept _) hread₃).mono fun verification w₄ hread₄ => ?_
  by_cases hvalid : (!verification.valid) = true
  · rw [if_pos hvalid]
    trivial
  rw [if_neg hvalid, safe_bind]
  refine (safe_hasRead (Proc.asks_ask ⟨rfl, rfl⟩) hread₄).mono fun active w₅ hread₅ => ?_
  cases active with
  | none => exact safe_takeOver hread₅
  | some active =>
    rw [hstepped]
    trivial

end Calls

/-- The outline. -/
def factorOutline (crypto : Crypto) (userId : UserId) :
    Outline (mfaMachine crypto) (withNewIds userId) where
  Inv w := w.state.UniqueActive
  Rely := FactorRely userId
  refl := FactorRely.refl
  trans := FactorRely.trans
  happen nowMs w hunique _ := ⟨hunique, ⟨.refl _, [], rfl, by simp⟩⟩
  Post _ _ _ _ _ := True
  safe command i w _ hstart _ := by
    cases command with
    | verify user proof =>
      show FactorSafe crypto userId i _ (IdentitySecondFactor.verify crypto user proof >>= _) _
      rw [FactorSafe, safe_bind]
      refine (safe_unissued (fun _ => False) (unissued_verify proof) fun _ => False.elim).mono ?_
      exact fun _ _ _ => trivial
    | enroll issuer user newId newSecret =>
      obtain rfl : user = userId := hstart
      show FactorSafe crypto user i _ (EnrollMfaHandler.execute _ _ _ _ >>= _) _
      rw [FactorSafe, safe_bind]
      exact (safe_enroll issuer newId newSecret).mono fun _ _ _ => trivial
    | activate input draws =>
      show FactorSafe crypto userId i _ (ActivateMfaHandler.execute _ _ _ >>= _) _
      rw [FactorSafe, safe_bind]
      exact (safe_activate input draws hstart.1 hstart.2).mono fun _ _ _ => trivial
    | disable user => exact hstart.elim

/-- Where the drawn ids are new, new credentials are saved under new ids. -/
theorem along_withNewIds {crypto : Crypto} {store : IdentityStore} {userId : UserId}
    {moves : MfaMoves} (hdraws : FreshDraws store moves)
    (hok : (mfaMachine crypto).Along (withoutStepUp userId) ⟨⟨store, []⟩, []⟩ moves) :
    (mfaMachine crypto).Along (withNewIds userId) ⟨⟨store, []⟩, []⟩ moves := by
  refine Machine.along_of_both (fun sys move hfresh hok => ?_) (along_freshId hdraws) hok
  cases move with
  | start command => exact hok
  | run i => exact fun op hop => ⟨hfresh op hop, hok op hop⟩
  | event nowMs => trivial

/-- In every run of a user's calls without step-up that draws new ids, and whose saves find pending
    what they have read as pending: an active credential stays active, and codes are replaced by
    nobody but the call that has activated it. -/
theorem factor_kept (crypto : Crypto) (store : IdentityStore) (userId : UserId) (moves : MfaMoves)
    (hunique : store.UniqueActive) (hdraws : FreshDraws store moves)
    (hok : (mfaMachine crypto).Along (withoutStepUp userId) ⟨⟨store, []⟩, []⟩ moves) :
    FactorKept crypto store userId moves := by
  rintro before after rfl id hactive
  obtain ⟨hbefore, hafter⟩ := Machine.along_append.mp (along_withNewIds hdraws hok)
  have hinit : (factorOutline crypto userId).Good ⟨⟨store, []⟩, []⟩ :=
    Outline.Good.init hunique rfl
  have hrely : FactorRely userId (mfaRun crypto store before).world
      (mfaRun crypto store (before ++ after)).world := by
    rw [mfaRun, mfaRun, Machine.run_append]
    exact ((hinit.run hbefore).1.run hafter).2
  obtain ⟨hkept, later, hlog, hlater⟩ := hrely
  refine ⟨hkept.isActive hactive, later, hlog, fun event hevent hreplaces => ?_⟩
  obtain ⟨-, hmade⟩ := hlater event hevent id hactive
  obtain ⟨made, hown, hactivates⟩ := hmade hreplaces
  refine ⟨made, ?_, hactivates⟩
  -- the credential has been active since, so it was activated before
  obtain ⟨hmem, hcaller⟩ := List.mem_filter.mp hown
  rw [hlog] at hmem
  rcases List.mem_append.mp hmem with hmem | hmem
  · obtain ⟨⟨row, hrow, -, hstatus⟩, -⟩ := hlater made hmem id hactive
    obtain ⟨credential, -, -, -, -, hinactive⟩ := hactivates
    exact absurd hstatus (hinactive row hrow)
  · exact List.mem_filter.mpr ⟨hmem, hcaller⟩

/-! ### A factor that goes -/

/-- Ann has enrolled and not activated yet. -/
def annPendingStore : IdentityStore :=
  ⟨[⟨⟨"ann"⟩, "ann@example.com", "hash", .active, some 0, 0, 0⟩],
    ⟨[⟨"c1", ⟨"ann"⟩, .pending, "ct", "SHA1", 6, 30, none, 0, none, none⟩], by decide⟩,
    Table.empty, [], 900000⟩

theorem annPendingStore_uniqueActive : annPendingStore.UniqueActive := by
  rintro userId id id' ⟨row, hrow, -, hactive⟩ -
  obtain ⟨hmem, -⟩ := Table.mem_of_get hrow
  obtain rfl := List.mem_singleton.mp hmem
  cases hactive

/-- She activates, and enrolls again, one after the other. -/
def enrollAfterActivate : MfaMoves :=
  .start (.activate ⟨⟨"ann"⟩, "000000", false⟩ [("r1", [])]) :: List.replicate 9 (.run 0) ++
    .start (.enroll "accesscore" ⟨"ann"⟩ "c2" []) :: List.replicate 5 (.run 1)

/-- The same two requests, where the enrollment has read the pending credential before. -/
def enrollDuringActivate : MfaMoves :=
  .start (.enroll "accesscore" ⟨"ann"⟩ "c2" []) :: List.replicate 3 (.run 0) ++
    .start (.activate ⟨⟨"ann"⟩, "000000", false⟩ [("r1", [])]) :: List.replicate 9 (.run 1) ++
    List.replicate 3 (.run 0)

theorem factor_kept_enrollAfterActivate :
    FactorKept constantCrypto annPendingStore ⟨"ann"⟩ enrollAfterActivate :=
  factor_kept constantCrypto annPendingStore ⟨"ann"⟩ enrollAfterActivate
    annPendingStore_uniqueActive (by decide +kernel) (by decide +kernel)

/-- The enrollment revokes the credential that has become active. -/
theorem factor_removed : FreshDraws annPendingStore enrollDuringActivate ∧
      ¬ FactorKept constantCrypto annPendingStore ⟨"ann"⟩ enrollDuringActivate := by
  refine ⟨by decide +kernel, fun hkept => ?_⟩
  have hactive : (mfaRun constantCrypto annPendingStore
      (enrollDuringActivate.take 14)).world.state.IsActive ⟨"ann"⟩ "c1" := by decide +kernel
  have hremoved : ¬ (mfaRun constantCrypto annPendingStore
      enrollDuringActivate).world.state.IsActive ⟨"ann"⟩ "c1" := by decide +kernel
  exact hremoved (hkept (enrollDuringActivate.take 14) (enrollDuringActivate.drop 14) rfl
    "c1" hactive).1

end AccessCore
