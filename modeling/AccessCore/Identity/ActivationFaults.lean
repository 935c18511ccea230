/-
  An activation that fails half way (`identity/application/activate-mfa.ts`).

  The handler writes up to four times, to three stores, and no transaction holds the writes
  together.  Its first four operations read; from its first write on, the active credential is not
  the one that was active before, until the call returns with every write made.  So the call is all
  or nothing exactly when it fails before its first write or does not fail at all
  (`activate_allOrNothing_iff`).  In between, a user whose credential is being replaced has none:
  the active one is revoked by one statement, and the pending one becomes active by another.
-/
import AccessCore.Lib.Faults
import AccessCore.Identity.Enrollment

namespace AccessCore

open IdentityStore

/-! ## What is asked of a replacement -/

/-- The recovery codes of a user. -/
def IdentityStore.codesOf (store : IdentityStore) (userId : UserId) : List RecoveryCode :=
  store.recoveryCodes.select fun row => row.userId = userId

abbrev ActivateOutcome := Except String (Except ActivateMfaError (List String))

def ReturnsOk (result : ActivateOutcome) : Prop := ∃ codes, result = .ok (.ok codes)

/-- A user with a factor keeps one, and a call that does not return `ok` changes neither the active
credential nor the recovery codes. -/
structure AllOrNothing (userId : UserId) (store store' : IdentityStore) (result : ActivateOutcome) :
    Prop where
  factor : store.HasFactor userId → store'.HasFactor userId
  unchanged : ¬ ReturnsOk result →
    store'.findByStatus userId .active = store.findByStatus userId .active ∧
      store'.codesOf userId = store.codesOf userId

theorem allOrNothing_of_eq {userId : UserId} {store store' : IdentityStore}
    {result : ActivateOutcome} (h : store' = store) : AllOrNothing userId store store' result := by
  subst h
  exact ⟨fun hfactor => hfactor, fun _ => ⟨rfl, rfl⟩⟩

/-- Once the active credential is another one, only a call that returns `ok` is in order. -/
theorem allOrNothing_iff_of_changed {userId : UserId} {store store' : IdentityStore}
    {result : ActivateOutcome}
    (hchanged : store'.findByStatus userId .active ≠ store.findByStatus userId .active)
    (hfactor : ReturnsOk result → store'.HasFactor userId) :
    AllOrNothing userId store store' result ↔ ReturnsOk result := by
  constructor
  · intro h
    by_contra hnot
    exact hchanged (h.unchanged hnot).1
  · intro hok
    exact ⟨fun _ => hfactor hok, fun hnot => absurd hok hnot⟩

/-! ## When the call gets to its writes -/

variable (crypto : Crypto) (input : ActivateMfaInput) (draws : List (String × List UInt8))

namespace ActivateMfaHandler

/-- The pending credential and the step of its code, when the call gets as far as to write. -/
def toActivate (store : IdentityStore) : Option (MfaCredential × Int) := do
  let pending ← store.findByStatus input.userId .pending
  let secret ← crypto.decrypt pending.secretCiphertext
  match Rfc6238Totp.verify crypto.hmacSha1 secret input.code store.nowMs driftWindow none with
  | .error _ => none
  | .ok verification =>
    if verification.valid && (input.steppedUp || (store.findByStatus input.userId .active).isNone)
    then some (pending, verification.step) else none

/-- The codes that `issue` stores. -/
def issuedCodes (now : Int) : List RecoveryCode :=
  draws.map fun (id, bytes) =>
    RecoveryCode.issue id input.userId (crypto.hash (RecoveryCodeIssuer.mintCode bytes)) now

/-- The ids and hashes of the new codes are free. -/
def codesFree (store : IdentityStore) : Bool :=
  (store.replaceCodes (store.unconsumedCodes input.userId)
    (issuedCodes crypto input draws store.nowMs)).2

/-- Whether the call is all or nothing when its operation after the first `n` fails: it stops
before its first write, or it makes all of them and none is refused. -/
def FailsSafely (store : IdentityStore) (n : Nat) : Prop :=
  match toActivate crypto input store with
  | none => True
  | some (pending, step) =>
    n ≤ 4 ∨
      match store.findByStatus input.userId .active with
      | none =>
        pending.lastUsedStep.any (step ≤ ·) = true ∨
          9 ≤ n ∧ codesFree crypto input draws store = true
      | some active =>
        10 ≤ n ∧ pending.lastUsedStep.any (step ≤ ·) = false ∧
          (∀ id, store.IsActive input.userId id → id = active.id) ∧
          codesFree crypto input draws store = true

/-! ## The parts of the call -/

/-- What an activated and used credential is saved as. -/
def firstUse (pending : MfaCredential) (now step : Int) : MfaCredential :=
  { pending with status := .active, activatedAt := some now, lastUsedStep := some step }

/-- The end of the call, after its last save. -/
def finish (pending : MfaCredential) : IdentityProc (Except ActivateMfaError (List String)) := do
  let recoveryCodes ← RecoveryCodeIssuer.issue crypto input.userId draws
  IdentityProc.appendAudit
    ⟨"mfa.activated", none, some input.userId.value, [("credentialId", .text pending.id)]⟩
  return .ok recoveryCodes

theorem takeOver_eq {pending : MfaCredential} (hpending : pending.status = .pending)
    (now step : Int) : takeOver crypto input draws pending now step =
      if pending.lastUsedStep.any (step ≤ ·) then .thrown "TOTP step replay rejected"
      else MfaCredentials.save (firstUse pending now step) >>= fun _ =>
        finish crypto input draws pending := by
  unfold takeOver MfaCredential.activate
  rw [if_neg (not_not.mpr hpending)]
  unfold MfaCredential.registerUse
  by_cases hreplay : pending.lastUsedStep.any (step ≤ ·) = true
  · simp [IdentityProc.ofExcept, hreplay]
  · simp [IdentityProc.ofExcept, hreplay, firstUse, finish]

/-- The writes of the call. -/
def writes (active : Option MfaCredential) (pending : MfaCredential) (now step : Int) :
    IdentityProc (Except ActivateMfaError (List String)) :=
  match active with
  | none => takeOver crypto input draws pending now step
  | some active =>
    MfaCredentials.save (active.revoke now) >>= fun _ =>
      takeOver crypto input draws pending now step

end ActivateMfaHandler

open ActivateMfaHandler

variable {crypto input draws} {store : IdentityStore}

/-- After four operations the call has ended, or is about to write. -/
theorem reaches_activate : Proc.Reaches (IdentityStore.exec crypto) 4
    (ActivateMfaHandler.execute crypto input draws) store
    ((toActivate crypto input store).map fun (pending, step) =>
      writes crypto input draws (store.findByStatus input.userId .active) pending store.nowMs
        step) := by
  unfold toActivate
  refine Proc.reaches_call rfl ?_
  have hfindPending : (IdentityStore.exec crypto (.findTotp input.userId .pending) store).2 =
      store.findByStatus input.userId .pending := rfl
  dsimp only [Proc.bind]
  rw [hfindPending]
  cases store.findByStatus input.userId .pending with
  | none => exact Proc.reaches_done
  | some pending =>
  refine Proc.reaches_call rfl (Proc.reaches_call rfl ?_)
  have hdecrypt : (IdentityStore.exec crypto (.decrypt pending.secretCiphertext) store).2 =
      crypto.decrypt pending.secretCiphertext := rfl
  dsimp only [Proc.bind]
  rw [Option.bind_eq_bind, Option.bind_some, hdecrypt]
  cases crypto.decrypt pending.secretCiphertext with
  | none => exact Proc.reaches_thrown
  | some secret =>
  show Proc.Reaches _ 1 (IdentityProc.ofExcept (Rfc6238Totp.verify crypto.hmacSha1 secret
    input.code store.nowMs driftWindow none) >>= _) _ _
  rw [Option.bind_eq_bind, Option.bind_some]
  cases Rfc6238Totp.verify crypto.hmacSha1 secret input.code store.nowMs driftWindow none with
  | error message => exact Proc.reaches_thrown
  | ok verification =>
  show Proc.Reaches _ 1 (if (!verification.valid) = true then _ else _) _ _
  by_cases hinvalid : (!verification.valid) = true
  · have hvalid : verification.valid = false := by simpa using hinvalid
    simp only [hvalid, Bool.not_false, if_true, Bool.false_and, Bool.false_eq_true, if_false]
    exact Proc.reaches_done
  have hvalid : verification.valid = true := by simpa using hinvalid
  simp only [hvalid, Bool.not_true, Bool.false_eq_true, if_false, Bool.true_and]
  refine Proc.reaches_call rfl ?_
  have hfindActive : (IdentityStore.exec crypto (.findTotp input.userId .active) store).2 =
      store.findByStatus input.userId .active := rfl
  dsimp only [Proc.bind]
  rw [hfindActive]
  cases store.findByStatus input.userId .active with
  | none =>
    simp only [Option.isNone_none, Bool.or_true, if_true]
    exact Proc.reaches_self
  | some active =>
  show Proc.Reaches _ 0 (if (!input.steppedUp) = true then _ else _) _ _
  simp only [Option.isNone_some, Bool.or_false]
  cases input.steppedUp with
  | false => exact Proc.reaches_done
  | true => exact Proc.reaches_self

/-! ## The writes -/

/-- One save and what follows it. -/
theorem failAfter_save {α : Type} (n : Nat) (credential : MfaCredential)
    (f : Unit → IdentityProc α) :
    Proc.failAfter (IdentityStore.exec crypto) (n + 1) (MfaCredentials.save credential >>= f)
        store =
      if (store.saveCredential credential).2 = true then
        Proc.failAfter (IdentityStore.exec crypto) n (f ()) (store.saveCredential credential).1
      else (store, .error
        "duplicate key value violates unique constraint \"mfa_active_totp_per_user\"") := by
  show Proc.failAfter _ n ((if (store.saveCredential credential).2 = true then .done ()
    else .thrown _) >>= f) (store.saveCredential credential).1 = _
  by_cases hsaved : (store.saveCredential credential).2 = true
  · rw [if_pos hsaved, if_pos hsaved, Proc.done_bind]
  · rcases store.saveCredential_cases credential with hsame | ⟨hok, -⟩
    · rw [if_neg hsaved, if_neg hsaved, Proc.thrown_bind, Proc.failAfter, Proc.after_thrown, hsame]
      rfl
    · exact absurd hok hsaved

theorem codesFree_save (credential : MfaCredential) :
    codesFree crypto input draws (store.saveCredential credential).1 =
      codesFree crypto input draws store := by
  have hcodes : (store.saveCredential credential).1.recoveryCodes = store.recoveryCodes :=
    saveCredential_recoveryCodes credential
  have hnow := exec_nowMs crypto (.saveCredential credential) store
  have hnow : (store.saveCredential credential).1.nowMs = store.nowMs := hnow
  unfold codesFree unconsumedCodes replaceCodes
  rw [hcodes, hnow]
  simp only
  split_ifs <;> rfl

/-- After the last save the call returns `ok` when none of its four operations fails and the new
codes are stored. -/
theorem finish_returnsOk {pending : MfaCredential} {n : Nat} :
    ReturnsOk (Proc.failAfter (IdentityStore.exec crypto) n (finish crypto input draws pending)
      store).2 ↔ 4 ≤ n ∧ codesFree crypto input draws store = true := by
  have hfailed : ∀ message, ¬ ReturnsOk (.error message) := by
    rintro message ⟨codes, h⟩
    cases h
  rcases n with _ | _ | _ | n
  · exact iff_of_false (hfailed _) (by omega)
  · exact iff_of_false (hfailed _) (by omega)
  · exact iff_of_false (hfailed _) (by omega)
  · show ReturnsOk (Proc.failAfter _ n (((if codesFree crypto input draws store = true then
      Proc.done () else Proc.thrown _) >>= _) >>= _) _).2 ↔ _
    by_cases hfree : codesFree crypto input draws store = true
    · rw [if_pos hfree]
      rcases n with _ | n
      · exact iff_of_false (hfailed _) (by omega)
      · refine iff_of_true ?_ ⟨by omega, hfree⟩
        show ReturnsOk (Proc.failAfter _ n (.done (.ok _)) _).2
        rw [Proc.failAfter, Proc.after_done]
        exact ⟨_, rfl⟩
    · rw [if_neg hfree]
      refine iff_of_false ?_ fun h => hfree h.2
      rw [Proc.failAfter, Proc.thrown_bind, Proc.thrown_bind, Proc.after_thrown]
      exact hfailed _

/-- Nothing after the last save touches a credential. -/
theorem finish_credentials {pending : MfaCredential} (n : Nat) :
    (Proc.failAfter (IdentityStore.exec crypto) n (finish crypto input draws pending)
      store).1.mfaCredentials = store.mfaCredentials := by
  have hasks : (finish crypto input draws pending).Asks fun op => op.saved = none := by
    refine Proc.asks_bind (fun codes => ?_) (asks_issueCodes draws)
    exact ⟨rfl, fun _ => trivial⟩
  exact Proc.after_keeps (fun s : IdentityStore => s.mfaCredentials = store.mfaCredentials)
    (fun _ _ hop hs => (exec_mfaCredentials hop).trans hs) hasks rfl

section TakeOver

variable {pending : MfaCredential} {now step : Int}

variable (crypto input draws store now step) in
/-- The pending credential takes over when its step is new, its row is admitted, and the rest of
the call is undisturbed. -/
theorem takeOver_returnsOk (hpending : pending.status = .pending) (n : Nat) :
    ReturnsOk (Proc.failAfter (IdentityStore.exec crypto) n
        (takeOver crypto input draws pending now step) store).2 ↔
      5 ≤ n ∧ pending.lastUsedStep.any (step ≤ ·) = false ∧
        (store.saveCredential (firstUse pending now step)).2 = true ∧
        codesFree crypto input draws store = true := by
  have hfailed : ∀ message, ¬ ReturnsOk (.error message) := by
    rintro message ⟨codes, h⟩
    cases h
  rw [takeOver_eq crypto input draws hpending]
  cases hreplay : pending.lastUsedStep.any (step ≤ ·) with
  | true =>
    rw [if_pos rfl, Proc.failAfter, Proc.after_thrown]
    exact iff_of_false (hfailed _) fun h => Bool.false_ne_true h.2.1.symm
  | false =>
    rw [if_neg Bool.false_ne_true]
    rcases n with _ | n
    · exact iff_of_false (hfailed _) (by omega)
    · rw [failAfter_save]
      by_cases hsaved : (store.saveCredential (firstUse pending now step)).2 = true
      · rw [if_pos hsaved, finish_returnsOk, codesFree_save]
        constructor
        · rintro ⟨hn, hfree⟩
          exact ⟨by omega, rfl, hsaved, hfree⟩
        · rintro ⟨hn, -, -, hfree⟩
          exact ⟨by omega, hfree⟩
      · rw [if_neg hsaved]
        exact iff_of_false (hfailed _) fun h => hsaved h.2.2.1

variable (crypto input draws store now step) in
/-- A take-over leaves the store as it is until its save is through, and then the saved row. -/
theorem takeOver_cases (hpending : pending.status = .pending) (n : Nat) :
    (n = 0 ∨ pending.lastUsedStep.any (step ≤ ·) = true ∨
        (store.saveCredential (firstUse pending now step)).2 = false) ∧
      (Proc.failAfter (IdentityStore.exec crypto) n
        (takeOver crypto input draws pending now step) store).1 = store ∨
    (0 < n ∧ pending.lastUsedStep.any (step ≤ ·) = false ∧
        (store.saveCredential (firstUse pending now step)).2 = true) ∧
      (Proc.failAfter (IdentityStore.exec crypto) n
        (takeOver crypto input draws pending now step) store).1.mfaCredentials =
          (store.saveCredential (firstUse pending now step)).1.mfaCredentials := by
  rw [takeOver_eq crypto input draws hpending]
  cases hreplay : pending.lastUsedStep.any (step ≤ ·) with
  | true =>
    rw [if_pos rfl, Proc.failAfter, Proc.after_thrown]
    exact Or.inl ⟨Or.inr (Or.inl rfl), rfl⟩
  | false =>
    rw [if_neg Bool.false_ne_true]
    rcases n with _ | n
    · exact Or.inl ⟨Or.inl rfl, rfl⟩
    · rw [failAfter_save]
      cases hsaved : (store.saveCredential (firstUse pending now step)).2 with
      | true =>
        rw [if_pos rfl]
        exact Or.inr ⟨⟨Nat.succ_pos n, rfl, rfl⟩, finish_credentials n⟩
      | false =>
        rw [if_neg Bool.false_ne_true]
        exact Or.inl ⟨Or.inr (Or.inr rfl), rfl⟩

/-- A take-over touches no other credential. -/
theorem takeOver_get (hpending : pending.status = .pending) {id : String} (hid : id ≠ pending.id)
    (n : Nat) : (Proc.failAfter (IdentityStore.exec crypto) n
      (takeOver crypto input draws pending now step) store).1.mfaCredentials.get id =
        store.mfaCredentials.get id := by
  rcases takeOver_cases crypto input draws store now step hpending n with
    ⟨-, hstate⟩ | ⟨⟨-, -, hsaved⟩, hcredentials⟩
  · rw [hstate]
  · have hother : id ≠ (firstUse pending now step).id := hid
    rcases store.saveCredential_cases (firstUse pending now step) with hsame | ⟨-, hget⟩
    · rw [hsame] at hsaved
      cases hsaved
    · rw [hcredentials, hget, if_neg hother]

/-- The saved row belongs to the user. -/
theorem firstUse_owner (hrow : store.mfaCredentials.get pending.id = some pending)
    (howner : pending.userId = input.userId) :
    (store.savedRow (firstUse pending now step)).userId = input.userId := by
  have hrow' : store.mfaCredentials.get (firstUse pending now step).id = some pending := hrow
  exact (savedRow_userId hrow').trans howner

/-- The saved row is an active credential of the user. -/
theorem hasFactor_firstUse (hrow : store.mfaCredentials.get pending.id = some pending)
    (howner : pending.userId = input.userId)
    (hsaved : (store.saveCredential (firstUse pending now step)).2 = true) :
    (store.saveCredential (firstUse pending now step)).1.HasFactor input.userId :=
  ⟨pending.id, isActive_of_get (get_of_saved hsaved) (firstUse_owner hrow howner)
    (savedRow_status _)⟩

variable (crypto draws now step) in
/-- Without an active credential before, the call is unsafe between its save and its return. -/
theorem first_allOrNothing_iff (hrow : store.mfaCredentials.get pending.id = some pending)
    (howner : pending.userId = input.userId) (hpending : pending.status = .pending)
    (hnone : store.findByStatus input.userId .active = none) (n : Nat) :
    let run := Proc.failAfter (IdentityStore.exec crypto) n
      (takeOver crypto input draws pending now step) store
    AllOrNothing input.userId store run.1 run.2 ↔
      n = 0 ∨ pending.lastUsedStep.any (step ≤ ·) = true ∨
        5 ≤ n ∧ codesFree crypto input draws store = true := by
  intro run
  have hnot : ¬ store.HasFactor input.userId := by
    rw [hasFactor_iff, hnone]
    nofun
  have hsaved : (store.saveCredential (firstUse pending now step)).2 = true := by
    apply saved_of_not_active
    intro _
    rw [firstUse_owner hrow howner]
    exact hnot
  have hok := takeOver_returnsOk crypto input draws store now step hpending n
  rcases takeOver_cases crypto input draws store now step hpending n with
    ⟨hearly, hstate⟩ | ⟨⟨hn, hfresh, -⟩, hcredentials⟩
  · refine iff_of_true (allOrNothing_of_eq hstate) ?_
    rw [hsaved] at hearly
    rcases hearly with hzero | hreplay | hrefused
    · exact Or.inl hzero
    · exact Or.inr (Or.inl hreplay)
    · cases hrefused
  · -- The user has a factor that he did not have.
    have hfactor : run.1.HasFactor input.userId :=
      (hasFactor_congr hcredentials).mpr (hasFactor_firstUse hrow howner hsaved)
    have hchanged : run.1.findByStatus input.userId .active ≠
        store.findByStatus input.userId .active := by
      intro heq
      rw [hasFactor_iff, heq, hnone] at hfactor
      cases hfactor
    rw [allOrNothing_iff_of_changed hchanged fun _ => hfactor, hok]
    constructor
    · rintro ⟨h5, -, -, hfree⟩
      exact Or.inr (Or.inr ⟨h5, hfree⟩)
    · rintro (hzero | hreplay | ⟨h5, hfree⟩)
      · omega
      · rw [hreplay] at hfresh
        cases hfresh
      · exact ⟨h5, hfresh, hsaved, hfree⟩

/-- After the revocation of the active credential the pending one is admitted where no third one
is active. -/
theorem admitted_iff {active : MfaCredential} (hne : pending.id ≠ active.id)
    (hrow : store.mfaCredentials.get pending.id = some pending)
    (howner : pending.userId = input.userId) (hpending : pending.status = .pending) :
    ((store.saveCredential (active.revoke now)).1.saveCredential (firstUse pending now step)).2 =
        true ↔ ∀ id, store.IsActive input.userId id → id = active.id := by
  have hrow₁ : (store.saveCredential (active.revoke now)).1.mfaCredentials.get pending.id =
      some pending := by
    rw [revoke_get, if_neg hne]
    exact hrow
  constructor
  · intro hsaved id hother
    by_contra hid
    have hstill : (store.saveCredential (active.revoke now)).1.IsActive input.userId id :=
      (isActive_revoke active now id).mpr ⟨hid, hother⟩
    have hsame : id = (firstUse pending now step).id :=
      eq_of_saved_active hsaved rfl (firstUse_owner hrow₁ howner) hstill
    -- but that one is still pending
    obtain ⟨row, hget, -, hstatus⟩ := hother
    have hget : store.mfaCredentials.get pending.id = some row := hsame ▸ hget
    obtain rfl := Option.some.inj (hrow.symm.trans hget)
    rw [hpending] at hstatus
    cases hstatus
  · intro honly
    apply saved_of_not_active
    rintro - ⟨id, hstill⟩
    rw [firstUse_owner hrow₁ howner] at hstill
    obtain ⟨hid, hbefore⟩ := (isActive_revoke active now id).mp hstill
    exact hid (honly id hbefore)

variable (crypto draws now step) in
/-- With one, the call is unsafe from the revocation of that one to its return. -/
theorem replacement_allOrNothing_iff {active : MfaCredential}
    (hrow : store.mfaCredentials.get pending.id = some pending)
    (howner : pending.userId = input.userId) (hpending : pending.status = .pending)
    (hactive : store.findByStatus input.userId .active = some active) (n : Nat) :
    let run := Proc.failAfter (IdentityStore.exec crypto) n
      (writes crypto input draws (some active) pending now step) store
    AllOrNothing input.userId store run.1 run.2 ↔
      n = 0 ∨ 6 ≤ n ∧ pending.lastUsedStep.any (step ≤ ·) = false ∧
        (∀ id, store.IsActive input.userId id → id = active.id) ∧
        codesFree crypto input draws store = true := by
  intro run
  obtain ⟨hrow', -, hactive'⟩ := findByStatus_some hactive
  have hne : pending.id ≠ active.id := by
    rintro heq
    rw [heq] at hrow
    obtain rfl := Option.some.inj (hrow.symm.trans hrow')
    rw [hpending] at hactive'
    cases hactive'
  rcases n with _ | n
  · exact iff_of_true (allOrNothing_of_eq rfl) (Or.inl rfl)
  -- The first write revokes the active credential, whatever comes next.
  let revoked := (store.saveCredential (active.revoke now)).1
  have hrun : run = Proc.failAfter (IdentityStore.exec crypto) n
      (takeOver crypto input draws pending now step) revoked := by
    show Proc.failAfter _ (n + 1) (MfaCredentials.save (active.revoke now) >>= _) store = _
    rw [failAfter_save, if_pos (revoke_saved active now)]
  have hrow₁ : revoked.mfaCredentials.get pending.id = some pending := by
    rw [revoke_get, if_neg hne]
    exact hrow
  have hcodes : codesFree crypto input draws revoked = codesFree crypto input draws store :=
    codesFree_save _
  have hok := takeOver_returnsOk crypto input draws revoked now step hpending n
  have hcases := takeOver_cases crypto input draws revoked now step hpending n
  rw [← hrun] at hok hcases
  -- The row of the old credential stays revoked.
  have hold : run.1.mfaCredentials.get active.id = some (store.savedRow (active.revoke now)) := by
    rw [hrun, takeOver_get hpending hne.symm, revoke_get, if_pos rfl]
  have hchanged : run.1.findByStatus input.userId .active ≠
      store.findByStatus input.userId .active := by
    intro heq
    rw [hactive] at heq
    obtain ⟨hget, -, hstatus⟩ := findByStatus_some heq
    have hrevoked := Option.some.inj (hold.symm.trans hget)
    rw [← hrevoked, savedRow_status, active.revoke_status] at hstatus
    cases hstatus
  have hfactor : ReturnsOk run.2 → run.1.HasFactor input.userId := by
    intro hreturned
    obtain ⟨h5, hfresh, hsaved, -⟩ := hok.mp hreturned
    rcases hcases with ⟨hearly, -⟩ | ⟨-, hcredentials⟩
    · rw [hfresh, hsaved] at hearly
      rcases hearly with hzero | hreplay | hrefused
      · omega
      · cases hreplay
      · cases hrefused
    · exact (hasFactor_congr hcredentials).mpr (hasFactor_firstUse hrow₁ howner hsaved)
  rw [allOrNothing_iff_of_changed hchanged hfactor, hok, admitted_iff hne hrow howner hpending,
    hcodes]
  constructor
  · rintro ⟨h5, hrest⟩
    exact Or.inr ⟨by omega, hrest⟩
  · rintro (hzero | ⟨h6, hrest⟩)
    · cases hzero
    · exact ⟨by omega, hrest⟩

end TakeOver

/-! ## The whole call -/

theorem toActivate_pending {pending : MfaCredential} {step : Int}
    (h : toActivate crypto input store = some (pending, step)) :
    store.findByStatus input.userId .pending = some pending := by
  obtain ⟨found, hfound, h⟩ := Option.bind_eq_some_iff.mp h
  obtain ⟨secret, -, h⟩ := Option.bind_eq_some_iff.mp h
  rw [hfound]
  cases hverify : Rfc6238Totp.verify crypto.hmacSha1 secret input.code store.nowMs driftWindow
    none with
  | error message =>
    simp only [hverify] at h
    cases h
  | ok verification =>
    simp only [hverify] at h
    split_ifs at h
    exact congrArg some (Prod.mk.inj (Option.some.inj h)).1

/-- **An activation is all or nothing exactly when it fails before its first write or makes all of
them.** -/
theorem activate_allOrNothing_iff (crypto : Crypto) (input : ActivateMfaInput)
    (draws : List (String × List UInt8)) (store : IdentityStore) (n : Nat) :
    let run := Proc.failAfter (IdentityStore.exec crypto) n
      (ActivateMfaHandler.execute crypto input draws) store
    AllOrNothing input.userId store run.1 run.2 ↔ FailsSafely crypto input draws store n := by
  intro run
  have hreaches : Proc.Reaches (IdentityStore.exec crypto) 4
    (ActivateMfaHandler.execute crypto input draws) store _ := reaches_activate
  unfold FailsSafely
  cases hfound : toActivate crypto input store with
  | none =>
    rw [hfound] at hreaches
    exact iff_of_true (allOrNothing_of_eq (hreaches.state (Or.inr rfl))) trivial
  | some found =>
    obtain ⟨pending, step⟩ := found
    obtain ⟨hrow, howner, hpending⟩ := findByStatus_some (toActivate_pending hfound)
    rw [hfound] at hreaches
    rcases Nat.lt_or_ge n 4 with hearly | hlate
    · -- only reads so far
      refine iff_of_true (allOrNothing_of_eq (hreaches.state (Or.inl ?_))) (Or.inl ?_)
      · omega
      · omega
    obtain ⟨m, rfl⟩ := Nat.exists_eq_add_of_le hlate
    have hrun : run = Proc.failAfter (IdentityStore.exec crypto) m (writes crypto input draws
        (store.findByStatus input.userId .active) pending store.nowMs step) store :=
      hreaches.rest m
    rw [hrun]
    cases hactive : store.findByStatus input.userId .active with
    | none =>
      have hiff := first_allOrNothing_iff crypto draws store.nowMs step hrow howner hpending
        hactive m
      refine hiff.trans ?_
      simp only
      constructor
      · rintro (hzero | hreplay | ⟨h5, hfree⟩)
        · exact Or.inl (by omega)
        · exact Or.inr (Or.inl hreplay)
        · exact Or.inr (Or.inr ⟨by omega, hfree⟩)
      · rintro (h4 | hreplay | ⟨h9, hfree⟩)
        · exact Or.inl (by omega)
        · exact Or.inr (Or.inl hreplay)
        · exact Or.inr (Or.inr ⟨by omega, hfree⟩)
    | some active =>
      have hiff := replacement_allOrNothing_iff crypto draws store.nowMs step hrow howner hpending
        hactive m
      refine hiff.trans ?_
      simp only
      constructor
      · rintro (hzero | ⟨h6, hrest⟩)
        · exact Or.inl (by omega)
        · exact Or.inr ⟨by omega, hrest⟩
      · rintro (h4 | ⟨h10, hrest⟩)
        · exact Or.inl (by omega)
        · exact Or.inr ⟨by omega, hrest⟩

/-- Ann replaces her authenticator, from a session that is stepped up. -/
def annReplaces : IdentityStore :=
  { annStore with
    mfaCredentials := ⟨[annTotp, MfaCredential.enroll "c2" ⟨"ann"⟩ "ct" 0], by decide⟩ }

/-- The save of the new credential fails: the old one is revoked by then, and Ann has none. -/
theorem activation_half_done :
    ¬ ∀ crypto input draws store n,
      AllOrNothing input.userId store
        (Proc.failAfter (IdentityStore.exec crypto) n
          (ActivateMfaHandler.execute crypto input draws) store).1
        (Proc.failAfter (IdentityStore.exec crypto) n
          (ActivateMfaHandler.execute crypto input draws) store).2 := by
  intro h
  have hann := (h constantCrypto ⟨⟨"ann"⟩, "000000", true⟩ [] annReplaces 5).factor
  rw [hasFactor_iff, hasFactor_iff] at hann
  exact absurd (hann (by decide)) (by decide)

end AccessCore
