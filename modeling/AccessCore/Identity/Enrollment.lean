/-
  The second factor of a user, one request after the other.

  `Stays` is what every request but `disable` keeps: a user who has an active credential keeps one,
  and unconsumed recovery codes are new only where there is one.  `disable` takes the credential
  and leaves the codes.
-/
import AccessCore.Identity.FactorRemoval

namespace AccessCore

namespace IdentityStore

/-- The user has an active TOTP credential. -/
def HasFactor (store : IdentityStore) (userId : UserId) : Prop := ∃ id, store.IsActive userId id

/-- The user has a recovery code that is not consumed. -/
def HasCodes (store : IdentityStore) (userId : UserId) : Prop :=
  ∃ row ∈ store.recoveryCodes.rows, row.userId = userId ∧ row.consumedAt = none

/-- What holds of the credentials of all users: one is active for each at most, and a pending one
    has not been used. -/
structure Sound (store : IdentityStore) : Prop where
  unique : store.UniqueActive
  unused : ∀ id, ∀ row ∈ store.mfaCredentials.get id, row.status = .pending →
    row.lastUsedStep = none

structure Stays (userId : UserId) (store store' : IdentityStore) : Prop where
  sound : store'.Sound
  factor : store.HasFactor userId → store'.HasFactor userId
  codes : store'.HasCodes userId → store.HasCodes userId ∨ store'.HasFactor userId

variable {crypto : Crypto} {store store' : IdentityStore} {userId : UserId}

/-- No operation moves the clock. -/
theorem exec_nowMs (crypto : Crypto) (op : IdentityOp) (store : IdentityStore) :
    (store.exec crypto op).1.nowMs = store.nowMs := by
  cases op with
  | saveCredential credential =>
    show (store.saveCredential credential).1.nowMs = _
    unfold saveCredential
    split_ifs <;> rfl
  | replaceCodes found codes =>
    show (store.replaceCodes found codes).1.nowMs = _
    unfold replaceCodes
    simp only
    split_ifs <;> rfl
  | consumeRecoveryCode code =>
    show (store.consumeRecoveryCode code).1.nowMs = _
    unfold consumeRecoveryCode
    split
    · split_ifs <;> rfl
    · rfl
  | _ => rfl

theorem hasFactor_congr (h : store'.mfaCredentials = store.mfaCredentials) :
    store'.HasFactor userId ↔ store.HasFactor userId := by
  unfold HasFactor IsActive
  rw [h]

theorem Sound.congr (hsound : store.Sound) (h : store'.mfaCredentials = store.mfaCredentials) :
    store'.Sound := by
  refine ⟨fun user id id' hid hid' => ?_, fun id row hrow => ?_⟩
  · have hget : ∀ id, store'.mfaCredentials.get id = store.mfaCredentials.get id := by simp [h]
    exact hsound.unique user id id' ((isActive_congr (hget id)).mp hid)
      ((isActive_congr (hget id')).mp hid')
  · rw [h] at hrow
    exact hsound.unused id row hrow

theorem FactorsKept.hasFactor (h : store.FactorsKept store') (hfactor : store.HasFactor userId) :
    store'.HasFactor userId := by
  obtain ⟨id, hactive⟩ := hfactor
  exact ⟨id, h.isActive hactive⟩

/-- A save keeps the credentials sound, if it saves no used credential as pending. -/
theorem Sound.save (hsound : store.Sound) (credential : MfaCredential)
    (h : credential.status = .pending → credential.lastUsedStep = none) :
    (store.saveCredential credential).1.Sound := by
  refine ⟨hsound.unique.save credential, fun id row hrow hpending => ?_⟩
  rcases store.saveCredential_cases credential with hsame | ⟨-, hget⟩
  · rw [hsame] at hrow
    exact hsound.unused id row hrow hpending
  · rw [Option.mem_def, hget] at hrow
    split_ifs at hrow with hid
    · obtain rfl := Option.some.inj hrow
      rw [savedRow_status] at hpending
      rw [savedRow_lastUsedStep]
      exact h hpending
    · exact hsound.unused id row hrow hpending

theorem saveCredential_recoveryCodes (credential : MfaCredential) :
    (store.saveCredential credential).1.recoveryCodes = store.recoveryCodes := by
  unfold saveCredential
  split_ifs <;> rfl

theorem hasCodes_save (credential : MfaCredential) :
    (store.saveCredential credential).1.HasCodes userId ↔ store.HasCodes userId := by
  unfold HasCodes
  rw [saveCredential_recoveryCodes]

/-- A save is refused only where another credential of the same user is active. -/
theorem saved_of_not_active {credential : MfaCredential} (h : credential.status = .active →
      ¬ store.HasFactor (store.savedRow credential).userId) :
    (store.saveCredential credential).2 = true := by
  have hadmits : admits store.mfaCredentials.rows (store.savedRow credential) = true := by
    unfold admits
    rw [savedRow_status]
    by_cases hactive : credential.status = .active
    · have hnone := h hactive
      simp only [hactive, ne_eq, not_true_eq_false, decide_false, Bool.false_or, List.all_eq_true,
        Bool.or_eq_true, decide_eq_true_eq]
      intro other hother
      by_cases hstatus : other.status = .active
      · refine Or.inl (Or.inr fun howner => hnone ⟨other.id, other, ?_, howner, hstatus⟩)
        exact Table.get_of_mem hother
      · exact Or.inr hstatus
    · simp [hactive]
  unfold saveCredential
  rw [if_pos hadmits]

end IdentityStore

open IdentityStore

section Requests

variable {crypto : Crypto} {store : IdentityStore} {userId : UserId}

theorem ends_save {Post : Except String Unit → IdentityStore → Prop} {credential : MfaCredential}
    (hsaved : (store.saveCredential credential).2 = true →
      Post (.ok ()) (store.saveCredential credential).1)
    (hrefused : (store.saveCredential credential).2 = false → ∀ message,
      Post (.error message) store) :
    Proc.Ends (IdentityStore.exec crypto) Post (MfaCredentials.save credential) store := by
  show Proc.Ends _ Post (if (store.saveCredential credential).2 = true then .done ()
    else .thrown _) (store.saveCredential credential).1
  by_cases h : (store.saveCredential credential).2 = true
  · rw [if_pos h]
    exact hsaved h
  · rw [if_neg h]
    rcases store.saveCredential_cases credential with hsame | ⟨hok, -⟩
    · rw [hsame]
      exact hrefused (by simpa using h) _
    · exact absurd hok h

/-- A program that saves no credential leaves them as they are. -/
theorem ends_unsaved {α : Type} {p : IdentityProc α} (hp : p.Asks fun op => op.saved = none) :
    Proc.Ends (IdentityStore.exec crypto)
      (fun _ s => s.mfaCredentials = store.mfaCredentials) p store :=
  Proc.ends_of_asks (fun s : IdentityStore => s.mfaCredentials = store.mfaCredentials)
    (fun _ _ hop hs => (exec_mfaCredentials hop).trans hs) hp rfl

theorem Stays.refl (hsound : store.Sound) : store.Stays userId store :=
  ⟨hsound, id, Or.inl⟩

/-- `enroll`, under an id that is new. -/
theorem ends_enroll {issuer newId : String} {newSecret : List UInt8} (hsound : store.Sound)
    (hfresh : store.mfaCredentials.get newId = none) :
    Proc.Ends (IdentityStore.exec crypto) (fun _ store' => store.Stays userId store')
      (EnrollMfaHandler.execute issuer userId newId newSecret) store := by
  -- the save of the new credential, after that of the superseded one
  have hlast : ∀ (user : User) (now : Int) (store₁ : IdentityStore), store₁.Sound →
      store.FactorsKept store₁ → (store₁.HasCodes userId → store.HasCodes userId) →
      store₁.mfaCredentials.get newId = none →
      Proc.Ends (IdentityStore.exec crypto) (fun _ store' => store.Stays userId store') (do
        let secretCiphertext : String ← Proc.ask (IdentityOp.encrypt newSecret)
        MfaCredentials.save (MfaCredential.enroll newId userId secretCiphertext now)
        return Except.ok ⟨issuer, user.email, newSecret⟩ :
          IdentityProc (Except EnrollMfaError EnrollMfaResult)) store₁ := by
    intro user now store₁ hsound₁ hkept hcodes hfresh₁
    refine Proc.ends_call.mpr ?_
    show Proc.Ends _ _ (MfaCredentials.save (MfaCredential.enroll newId userId
      (crypto.encrypt newSecret) now) >>= _) store₁
    rw [Proc.ends_bind]
    have hactive : store₁.FactorsKept (store₁.saveCredential (MfaCredential.enroll newId userId
        (crypto.encrypt newSecret) now)).1 := by
      refine .save fun _ row hrow => ?_
      rw [Option.mem_def, show (MfaCredential.enroll newId userId _ now).id = newId from rfl,
        hfresh₁] at hrow
      cases hrow
    refine ends_save (fun _ => ?_) fun _ message => ?_
    · refine ⟨hsound₁.save _ fun _ => rfl, fun h => (hkept.trans hactive).hasFactor h, fun h => ?_⟩
      exact Or.inl (hcodes ((hasCodes_save _).mp h))
    · exact ⟨hsound₁, fun h => hkept.hasFactor h, fun h => Or.inl (hcodes h)⟩
  refine Proc.ends_call.mpr ?_
  generalize (IdentityStore.exec crypto (.findUser userId) store).2 = found
  cases (found : Option User) with
  | none => exact Stays.refl hsound
  | some user =>
    show Proc.Ends _ _ _ store
    refine Proc.ends_call.mpr (Proc.ends_call.mpr ?_)
    generalize hfound : (IdentityStore.exec crypto (.findTotp userId .pending)
      (store.exec crypto .now).1).2 = found
    cases (found : Option MfaCredential) with
    | none => exact hlast user _ store hsound (FactorsKept.refl store) (fun h => h) hfresh
    | some superseded =>
      obtain ⟨hrow, -, hpending⟩ := findByStatus_some
        (show store.findByStatus userId .pending = some superseded from hfound)
      show Proc.Ends _ _ (MfaCredentials.save (superseded.revoke store.nowMs) >>= _) store
      rw [Proc.ends_bind]
      have hid := superseded.revoke_id store.nowMs
      refine ends_save (fun hsaved => ?_) fun _ message => Stays.refl hsound
      refine hlast user _ _ (hsound.save _ ?_) (.save fun _ row hrow' => ?_) ?_ ?_
      · rw [superseded.revoke_status]
        nofun
      · rw [hid, Option.mem_def, hrow] at hrow'
        obtain rfl := Option.some.inj hrow'
        rw [hpending]
        nofun
      · exact (hasCodes_save _).mp
      · rcases store.saveCredential_cases (superseded.revoke store.nowMs) with hsame | ⟨-, hget⟩
        · rw [hsame]
          exact hfresh
        · have hne : newId ≠ superseded.id := by
            rintro rfl
            rw [hrow] at hfresh
            cases hfresh
          rw [hget, hid, if_neg hne]
          exact hfresh

/-- A pending credential that has not been used is activated and used. -/
theorem activate_pending {pending : MfaCredential} (hpending : pending.status = .pending)
    (hunused : pending.lastUsedStep = none) (now step : Int) :
    ∃ activated used, pending.activate now = .ok activated ∧
      activated.registerUse step = .ok used ∧ used.id = pending.id ∧ used.status = .active := by
  refine ⟨{ pending with status := .active, activatedAt := some now },
    { pending with status := .active, activatedAt := some now, lastUsedStep := some step },
    ?_, ?_, rfl, rfl⟩
  · unfold MfaCredential.activate
    rw [if_neg (not_not.mpr hpending)]
  · unfold MfaCredential.registerUse
    rw [if_neg (by simp), if_neg (by simp [hunused])]

/-- Without an active credential, a pending one takes over. -/
theorem ends_takeOver {input : ActivateMfaInput} {draws : List (String × List UInt8)}
    {pending : MfaCredential} {now step : Int} (hsound : store.Sound)
    (hrow : store.mfaCredentials.get pending.id = some pending)
    (howner : pending.userId = userId) (hpending : pending.status = .pending)
    (hnone : ¬ store.HasFactor userId) :
    Proc.Ends (IdentityStore.exec crypto) (fun _ store' => store'.Sound ∧ store'.HasFactor userId)
      (ActivateMfaHandler.takeOver crypto input draws pending now step) store := by
  have hunused := hsound.unused pending.id pending hrow hpending
  obtain ⟨activated, used, hactivated, hused, hid, hactive⟩ :=
    activate_pending hpending hunused now step
  unfold ActivateMfaHandler.takeOver
  rw [hactivated]
  show Proc.Ends _ _ (IdentityProc.ofExcept (activated.registerUse step) >>= _) store
  rw [hused]
  show Proc.Ends _ _ (MfaCredentials.save used >>= _) store
  rw [Proc.ends_bind]
  rw [← hid] at hrow
  have howned : (store.savedRow used).userId = userId := (savedRow_userId hrow).trans howner
  refine ends_save (fun hsaved => ?_) fun hrefused => ?_
  · have hfactor : (store.saveCredential used).1.HasFactor userId := by
      refine ⟨used.id, isActive_of_get (get_of_saved hsaved) howned ?_⟩
      rw [savedRow_status, hactive]
    have hsound' := hsound.save used (by rw [hactive]; nofun)
    -- what follows saves no credential
    refine (ends_unsaved ?_).mono fun _ store' hsame => ?_
    · show Proc.Asks _ (RecoveryCodeIssuer.issue crypto input.userId draws >>= _)
      refine Proc.asks_bind (fun codes => ?_) (asks_issueCodes draws)
      exact ⟨rfl, fun _ => trivial⟩
    · exact ⟨hsound'.congr hsame, (hasFactor_congr hsame).mpr hfactor⟩
  · have hsaved : (store.saveCredential used).2 = true :=
      saved_of_not_active fun _ => by rwa [howned]
    rw [hsaved] at hrefused
    cases hrefused

/-- Where the user has no active credential, none is found. -/
theorem IdentityStore.hasFactor_iff : store.HasFactor userId ↔
    (store.findByStatus userId .active).isSome := by
  constructor
  · rintro ⟨id, row, hrow, howner, hactive⟩
    obtain ⟨hmem, -⟩ := Table.mem_of_get hrow
    unfold findByStatus
    rw [List.isSome_head?]
    refine List.ne_nil_of_mem (a := row) (List.mem_filter.mpr ⟨hmem, ?_⟩)
    simp [howner, hactive]
  · intro h
    obtain ⟨row, hrow⟩ := Option.isSome_iff_exists.mp h
    obtain ⟨hget, howner, hactive⟩ := findByStatus_some hrow
    exact ⟨row.id, row, hget, howner, hactive⟩

/-- A revocation is never refused. -/
theorem revoke_saved (active : MfaCredential) (now : Int) :
    (store.saveCredential (active.revoke now)).2 = true := by
  have hstatus := active.revoke_status now
  exact saved_of_not_active (by rw [hstatus]; nofun)

theorem revoke_get (active : MfaCredential) (now : Int) (id : String) :
    (store.saveCredential (active.revoke now)).1.mfaCredentials.get id =
      if id = active.id then some (store.savedRow (active.revoke now))
      else store.mfaCredentials.get id := by
  have hsaved : (store.saveCredential (active.revoke now)).2 = true := revoke_saved active now
  rcases store.saveCredential_cases (active.revoke now) with hsame | ⟨-, hget⟩
  · rw [hsame] at hsaved
    cases hsaved
  · rw [hget, active.revoke_id]

/-- After the revocation of a credential the user's other ones are active that were before. -/
theorem isActive_revoke (active : MfaCredential) (now : Int) (id : String) :
    (store.saveCredential (active.revoke now)).1.IsActive userId id ↔
      id ≠ active.id ∧ store.IsActive userId id := by
  unfold IsActive
  rw [revoke_get]
  by_cases hid : id = active.id
  · rw [if_pos hid]
    refine iff_of_false ?_ fun h => h.1 hid
    rintro ⟨row, hrow, -, hactive⟩
    obtain rfl := Option.some.inj hrow
    rw [savedRow_status, active.revoke_status] at hactive
    cases hactive
  · rw [if_neg hid]
    exact ⟨fun h => ⟨hid, h⟩, fun h => h.2⟩

/-- The revocation of the active credential: the user has none then, and the others stay. -/
theorem revoke_active {active : MfaCredential} (now : Int) (hsound : store.Sound)
    (hrow : store.mfaCredentials.get active.id = some active) (howner : active.userId = userId)
    (hactive : active.status = .active) :
    (store.saveCredential (active.revoke now)).1.Sound ∧
      ¬ (store.saveCredential (active.revoke now)).1.HasFactor userId ∧
      ∀ id ≠ active.id, (store.saveCredential (active.revoke now)).1.mfaCredentials.get id =
        store.mfaCredentials.get id := by
  have hstatus := active.revoke_status now
  refine ⟨hsound.save _ (by rw [hstatus]; nofun), ?_, fun id hne => ?_⟩
  · rintro ⟨id, hstill⟩
    obtain ⟨hne, hbefore⟩ := (isActive_revoke active now id).mp hstill
    exact hne (hsound.unique userId id active.id hbefore (isActive_of_get hrow howner hactive))
  · rw [revoke_get, if_neg hne]

/-- `activate`: if it activates a credential, then in place of the one it revokes. -/
theorem ends_activate {input : ActivateMfaInput} {draws : List (String × List UInt8)}
    (huser : input.userId = userId) (hsound : store.Sound) :
    Proc.Ends (IdentityStore.exec crypto) (fun _ store' => store.Stays userId store')
      (ActivateMfaHandler.execute crypto input draws) store := by
  subst huser
  refine Proc.ends_call.mpr ?_
  generalize hfound : (IdentityStore.exec crypto (.findTotp input.userId .pending) store).2 = found
  cases (found : Option MfaCredential) with
  | none => exact Stays.refl hsound
  | some pending =>
  obtain ⟨hrow, howner, hpending⟩ := findByStatus_some
    (show store.findByStatus input.userId .pending = some pending from hfound)
  show Proc.Ends _ _ _ store
  refine Proc.ends_call.mpr (Proc.ends_call.mpr ?_)
  generalize (IdentityStore.exec crypto (.decrypt pending.secretCiphertext)
    (store.exec crypto .now).1).2 = decrypted
  cases (decrypted : Option (List UInt8)) with
  | none => exact Stays.refl hsound
  | some secret =>
  show Proc.Ends _ _ (IdentityProc.ofExcept (Rfc6238Totp.verify crypto.hmacSha1 secret input.code
    store.nowMs driftWindow none) >>= _) store
  cases Rfc6238Totp.verify crypto.hmacSha1 secret input.code store.nowMs driftWindow none with
  | error message => exact Stays.refl hsound
  | ok verification =>
  show Proc.Ends _ _ (if (!verification.valid) = true then _ else _) store
  by_cases hvalid : (!verification.valid) = true
  · rw [if_pos hvalid]
    exact Stays.refl hsound
  rw [if_neg hvalid]
  refine Proc.ends_call.mpr ?_
  generalize hactive : (IdentityStore.exec crypto (.findTotp input.userId .active) store).2 = active
  cases (active : Option MfaCredential) with
  | none =>
    have hnone : ¬ store.HasFactor input.userId := by
      rw [hasFactor_iff, show store.findByStatus input.userId .active = none from hactive]
      exact Bool.false_ne_true
    refine (ends_takeOver hsound hrow howner hpending hnone).mono fun _ store' h => ?_
    exact ⟨h.1, fun _ => h.2, fun _ => Or.inr h.2⟩
  | some active =>
  show Proc.Ends _ _ (if (!input.steppedUp) = true then _ else _) store
  by_cases hstepped : (!input.steppedUp) = true
  · rw [if_pos hstepped]
    exact Stays.refl hsound
  rw [if_neg hstepped]
  -- the active credential gives way to the pending one
  obtain ⟨hrow', howner', hactive'⟩ := findByStatus_some
    (show store.findByStatus input.userId .active = some active from hactive)
  obtain ⟨hsound₁, hnone₁, hframe₁⟩ :=
    revoke_active store.nowMs hsound hrow' howner' hactive'
  have hne : pending.id ≠ active.id := by
    intro heq
    rw [heq] at hrow
    obtain rfl := Option.some.inj (hrow.symm.trans hrow')
    rw [hpending] at hactive'
    cases hactive'
  show Proc.Ends _ _ (MfaCredentials.save (active.revoke store.nowMs) >>= _) store
  rw [Proc.ends_bind]
  refine ends_save (fun _ => ?_) fun _ _ => Stays.refl hsound
  rw [← hframe₁ pending.id hne] at hrow
  refine (ends_takeOver hsound₁ hrow howner hpending hnone₁).mono fun _ store' h => ?_
  exact ⟨h.1, fun _ => h.2, fun _ => Or.inr h.2⟩

/-- `regenerate` issues codes to a user with an active credential only. -/
theorem ends_regenerate {draws : List (String × List UInt8)} (hsound : store.Sound) :
    Proc.Ends (IdentityStore.exec crypto) (fun _ store' => store.Stays userId store')
      (RegenerateRecoveryCodesHandler.execute crypto userId draws) store := by
  refine Proc.ends_call.mpr ?_
  generalize hactive : (IdentityStore.exec crypto (.findTotp userId .active) store).2 = active
  cases (active : Option MfaCredential) with
  | none => exact Stays.refl hsound
  | some active =>
  have hfactor : store.HasFactor userId := by
    rw [hasFactor_iff, show store.findByStatus userId .active = some active from hactive]
    rfl
  refine (ends_unsaved ?_).mono fun _ store' hsame => ?_
  · show Proc.Asks _ (RecoveryCodeIssuer.issue crypto userId draws >>= _)
    exact Proc.asks_bind (fun codes => by trivial) (asks_issueCodes draws)
  · have hfactor' := (hasFactor_congr hsame).mpr hfactor
    exact ⟨hsound.congr hsame, fun _ => hfactor', fun _ => Or.inr hfactor'⟩

/-- `disable` takes the credential, and no code is new. -/
theorem ends_disable (hsound : store.Sound) :
    Proc.Ends (IdentityStore.exec crypto)
      (fun _ store' => store'.Sound ∧ (store'.HasCodes userId → store.HasCodes userId))
      (DisableMfaHandler.execute userId) store := by
  refine Proc.ends_call.mpr ?_
  generalize hactive : (IdentityStore.exec crypto (.findTotp userId .active) store).2 = active
  cases (active : Option MfaCredential) with
  | none => exact ⟨hsound, id⟩
  | some active =>
  obtain ⟨hrow, howner, hstatus⟩ := findByStatus_some
    (show store.findByStatus userId .active = some active from hactive)
  refine Proc.ends_call.mpr ?_
  show Proc.Ends _ _ (MfaCredentials.save (active.revoke store.nowMs) >>= _) store
  rw [Proc.ends_bind]
  refine ends_save (fun _ => ?_) fun _ _ => ⟨hsound, id⟩
  obtain ⟨hsound₁, -, -⟩ := revoke_active store.nowMs hsound hrow howner hstatus
  exact ⟨hsound₁.congr rfl, (hasCodes_save (active.revoke store.nowMs)).mp⟩

/-- A code is used up where it is not consumed yet; no code is new. -/
theorem consume_codes (store : IdentityStore) (userId : UserId) (code : RecoveryCode)
    (hconsumed : code.consumedAt ≠ none) :
    ((store.consumeRecoveryCode code).1.HasCodes userId → store.HasCodes userId) ∧
      (store.consumeRecoveryCode code).1.mfaCredentials = store.mfaCredentials := by
  unfold consumeRecoveryCode
  cases store.recoveryCodes.get code.id with
  | none => exact ⟨id, rfl⟩
  | some row =>
  by_cases hunconsumed : row.consumedAt.isNone = true
  · simp only [hunconsumed, if_true]
    refine ⟨?_, trivial⟩
    rintro ⟨row', hrow', howner, hnone⟩
    rcases Table.mem_upsertRows hrow' with rfl | ⟨old, -, -, rfl⟩ | hrow'
    · exact absurd hnone hconsumed
    · exact absurd hnone hconsumed
    · exact ⟨row', hrow', howner, hnone⟩
  · simp [hunconsumed]

/-- A proof presents an unconsumed recovery code of the user. -/
def PresentsCode (crypto : Crypto) (store : IdentityStore) (userId : UserId) :
    SecondFactorProof → Prop
  | .recovery value =>
    ∃ code ∈ store.findRecoveryCode userId (crypto.hash value), code.consumedAt = none
  | .totp _ => False

instance (crypto : Crypto) (store : IdentityStore) (userId : UserId) (proof : SecondFactorProof) :
    Decidable (PresentsCode crypto store userId proof) := by
  unfold PresentsCode
  cases proof <;> infer_instance

/-- Who presents an unconsumed code has one. -/
theorem hasCodes_of_presents {proof : SecondFactorProof}
    (h : PresentsCode crypto store userId proof) : store.HasCodes userId := by
  cases proof with
  | totp value => exact h.elim
  | recovery value =>
    obtain ⟨code, hfound, hunconsumed⟩ := h
    have hmem := List.mem_of_head? hfound
    obtain ⟨hrow, howner, -⟩ : code ∈ store.recoveryCodes.rows ∧ code.userId = userId ∧
        code.codeHash = crypto.hash value := by
      simpa [Table.select] using hmem
    exact ⟨code, hrow, howner, hunconsumed⟩

/-- `verify` accepts a proof where the user has an active credential, or an unconsumed code. -/
theorem ends_verify {proof : SecondFactorProof} (hsound : store.Sound) :
    Proc.Ends (IdentityStore.exec crypto) (fun result store' => store.Stays userId store' ∧
        (store'.HasCodes userId → store.HasCodes userId) ∧
        (result = .ok true → store'.HasFactor userId ∨ PresentsCode crypto store userId proof))
      (IdentitySecondFactor.verify crypto userId proof) store := by
  have hsame : ∀ result : Except String Bool, result ≠ .ok true →
      store.Stays userId store ∧ (store.HasCodes userId → store.HasCodes userId) ∧
      (result = .ok true → store.HasFactor userId ∨ PresentsCode crypto store userId proof) :=
    fun _ hresult => ⟨Stays.refl hsound, id, fun h => absurd h hresult⟩
  cases proof with
  | recovery value =>
    refine Proc.ends_call.mpr ?_
    generalize hfound : (IdentityStore.exec crypto
      (.findRecoveryCode userId (crypto.hash value)) store).2 = found
    cases (found : Option RecoveryCode) with
    | none => exact hsame (.ok false) (by simp)
    | some code =>
    show Proc.Ends _ _ (if code.isConsumed = true then _ else _) store
    by_cases hconsumed : code.isConsumed = true
    · rw [if_pos hconsumed]
      exact hsame (.ok false) (by simp)
    rw [if_neg hconsumed]
    refine Proc.ends_call.mpr ?_
    have hunconsumed : code.consumedAt = none := by
      simpa [RecoveryCode.isConsumed] using hconsumed
    show Proc.Ends _ _ (IdentityProc.ofExcept (code.consume store.nowMs) >>= _) store
    unfold RecoveryCode.consume
    rw [if_neg (by simp [hunconsumed])]
    refine Proc.ends_call.mpr ?_
    obtain ⟨hcodes, hcredentials⟩ := consume_codes store userId
      { code with consumedAt := some store.nowMs } (by simp)
    refine ⟨⟨hsound.congr hcredentials, (hasFactor_congr hcredentials).mpr, fun h => ?_⟩, hcodes,
      fun _ => Or.inr ⟨code, hfound, hunconsumed⟩⟩
    exact Or.inl (hcodes h)
  | totp value =>
    refine Proc.ends_call.mpr ?_
    generalize hfound : (IdentityStore.exec crypto (.findTotp userId .active) store).2 = found
    cases (found : Option MfaCredential) with
    | none => exact hsame (.ok false) (by simp)
    | some credential =>
    obtain ⟨hrow, howner, hactive⟩ := findByStatus_some
      (show store.findByStatus userId .active = some credential from hfound)
    show Proc.Ends _ _ _ store
    refine Proc.ends_call.mpr ?_
    generalize (IdentityStore.exec crypto (.decrypt credential.secretCiphertext)
      store).2 = decrypted
    cases (decrypted : Option (List UInt8)) with
    | none => exact hsame (.error _) (by simp)
    | some secret =>
    show Proc.Ends _ _ _ store
    refine Proc.ends_call.mpr ?_
    show Proc.Ends _ _ (IdentityProc.ofExcept (Rfc6238Totp.verify crypto.hmacSha1 secret value
      store.nowMs driftWindow credential.lastUsedStep) >>= _) store
    cases Rfc6238Totp.verify crypto.hmacSha1 secret value store.nowMs driftWindow
      credential.lastUsedStep with
    | error message => exact hsame (.error _) (by simp)
    | ok verification =>
    show Proc.Ends _ _ (if (!verification.valid) = true then _ else _) store
    by_cases hvalid : (!verification.valid) = true
    · rw [if_pos hvalid]
      exact hsame (.ok false) (by simp)
    rw [if_neg hvalid]
    show Proc.Ends _ _ (IdentityProc.ofExcept (credential.registerUse verification.step) >>= _)
      store
    cases hused : credential.registerUse verification.step with
    | error message => exact hsame (.error _) (by simp)
    | ok used =>
    obtain ⟨hstatus, hid⟩ : used.status = .active ∧ used.id = credential.id := by
      obtain ⟨-, -, rfl⟩ := MfaCredential.registerUse_ok hused
      exact ⟨hactive, rfl⟩
    show Proc.Ends _ _ (MfaCredentials.save used >>= _) store
    rw [Proc.ends_bind]
    refine ends_save (fun _ => ?_) fun _ message => hsame (.error _) (by simp)
    have hkept : store.FactorsKept (store.saveCredential used).1 :=
      .save fun hne => absurd hstatus hne
    have hfactor := hkept.hasFactor ⟨credential.id, isActive_of_get hrow howner hactive⟩
    refine ⟨⟨hsound.save used (by simp [hstatus]), fun _ => hfactor, fun _ => Or.inr hfactor⟩,
      (hasCodes_save used).mp, fun _ => Or.inl hfactor⟩

end Requests

end AccessCore
