/-
  Step-up and the enrolled factor, over runs of one user's requests one after the other.

  A recovery code is accepted wherever it is not consumed, whether or not the user has an active
  credential.  `Linked` is what keeps the two together: unconsumed codes belong to a user who has
  an active credential, until MFA is disabled.  So a step-up succeeds without a factor only with a
  code that is presented after MFA was disabled (`step_up_needs_factor`).
-/
import AccessCore.Authn.RefreshSafety
import AccessCore.Identity.Enrollment

namespace AccessCore

inductive FactorRequest where
  | enroll (issuer newId : String) (newSecret : List UInt8)
  | activate (code : String) (steppedUp : Bool) (draws : List (String × List UInt8))
  | regenerate (draws : List (String × List UInt8))
  | disable
  | stepUp (sessionId : String) (proof : SecondFactorProof) (jti : String)

inductive FactorResult where
  | enrolled (result : Except EnrollMfaError EnrollMfaResult)
  | activated (result : Except ActivateMfaError (List String))
  | regenerated (result : Except RegenerateRecoveryCodesError (List String))
  | disabled (result : Except DisableMfaError Unit)
  | steppedUp (result : Except StepUpError StepUpResult)

namespace FactorRequest

variable (settings : AuthnSettings) (userId : UserId)

/-- The handler of a request of the user. -/
def program : FactorRequest → AuthnProc FactorResult
  | enroll issuer newId newSecret => do
    let result ← AuthnProc.ofIdentity (EnrollMfaHandler.execute issuer userId newId newSecret)
    return .enrolled result
  | activate code steppedUp draws => do
    let result ← AuthnProc.ofIdentity
      (ActivateMfaHandler.execute settings.crypto ⟨userId, code, steppedUp⟩ draws)
    return .activated result
  | regenerate draws => do
    let result ← AuthnProc.ofIdentity
      (RegenerateRecoveryCodesHandler.execute settings.crypto userId draws)
    return .regenerated result
  | disable => do
    let result ← AuthnProc.ofIdentity (DisableMfaHandler.execute userId)
    return .disabled result
  | stepUp sessionId proof jti => do
    let result ← StepUpHandler.execute settings ⟨sessionId, userId.value, proof⟩ jti
    return .steppedUp result

/-- The request, from its first statement to its last. -/
def perform (request : FactorRequest) (store : AuthnStore) :
    AuthnStore × Except String FactorResult :=
  (request.program settings userId).eval (AuthnStore.exec settings) store

end FactorRequest

/-- A request, or a clock that may read anything from now on. -/
inductive FactorStep where
  | request (request : FactorRequest)
  | clock (nowMs : Int)

/-- The stores, and whether MFA has been disabled with no credential active since. -/
structure FactorState where
  store : AuthnStore
  disabled : Bool

section Runs

variable (settings : AuthnSettings) (userId : UserId)

def AuthnStore.hasFactor (store : AuthnStore) : Bool :=
  (store.identity.findByStatus userId .active).isSome

def FactorState.next (state : FactorState) : FactorStep → FactorState
  | .clock nowMs => { state with store := { state.store with nowMs := nowMs } }
  | .request request =>
    let store := (request.perform settings userId state.store).1
    match request with
    | .disable => ⟨store, state.disabled || state.store.hasFactor userId⟩
    | _ => ⟨store, state.disabled && !store.hasFactor userId⟩

def factorRun (state : FactorState) (steps : List FactorStep) : FactorState :=
  steps.foldl (FactorState.next settings userId) state

/-- After MFA was disabled no unconsumed recovery code is presented, until a credential is active
    again; and a new credential has a new id, as a random UUID is. -/
def FactorStep.Orderly (state : FactorState) : FactorStep → Prop
  | .request (.enroll _ newId _) => state.store.identity.mfaCredentials.get newId = none
  | .request (.stepUp _ proof _) =>
    state.disabled = true → ¬ PresentsCode settings.crypto state.store.identity userId proof
  | _ => True

def OrderlyRun : FactorState → List FactorStep → Prop
  | _, [] => True
  | state, step :: steps =>
    step.Orderly settings userId state ∧ OrderlyRun (state.next settings userId step) steps

instance (state : FactorState) (step : FactorStep) :
    Decidable (step.Orderly settings userId state) := by
  unfold FactorStep.Orderly
  cases step with
  | clock nowMs => infer_instance
  | request request => cases request <;> infer_instance

instance OrderlyRun.decidable : ∀ (state : FactorState) (steps : List FactorStep),
    Decidable (OrderlyRun settings userId state steps)
  | _, [] => .isTrue trivial
  | state, step :: steps =>
    have := OrderlyRun.decidable (state.next settings userId step) steps
    inferInstanceAs (Decidable (_ ∧ _))

/-- Whenever a step-up of the run returns a token, the user has an active credential. -/
def StepUpNeedsFactor (state : FactorState) (steps : List FactorStep) : Prop :=
  ∀ before sessionId proof jti after result,
    steps = before ++ .request (.stepUp sessionId proof jti) :: after →
    ((FactorRequest.stepUp sessionId proof jti).perform settings userId
      (factorRun settings userId state before).store).2 = .ok (.steppedUp (.ok result)) →
    ((FactorRequest.stepUp sessionId proof jti).perform settings userId
      (factorRun settings userId state before).store).1.identity.HasFactor userId

end Runs

/-- Unconsumed codes belong to a user with an active credential, until MFA is disabled. -/
structure Linked (userId : UserId) (state : FactorState) : Prop where
  sound : state.store.identity.Sound
  codes : state.store.identity.HasCodes userId →
    state.store.identity.HasFactor userId ∨ state.disabled = true

/-! ## The requests, over the wider stores -/

namespace AuthnStore

/-- The identity store as its operations see it. -/
def identityNow (store : AuthnStore) : IdentityStore :=
  { store.identity with nowMs := store.nowMs }

/-- An operation of the identity store does there what it does alone. -/
theorem exec_identityNow {settings : AuthnSettings} (op : IdentityOp) (store : AuthnStore) :
    (store.exec settings (.identity op)).1.identityNow =
        (store.identityNow.exec settings.crypto op).1 ∧
      (store.exec settings (.identity op)).2 = (store.identityNow.exec settings.crypto op).2 := by
  have hclock := IdentityStore.exec_nowMs settings.crypto op store.identityNow
  refine ⟨?_, rfl⟩
  show { (store.identityNow.exec settings.crypto op).1 with nowMs := store.nowMs } = _
  rw [show store.nowMs = store.identityNow.nowMs from rfl, ← hclock]

end AuthnStore

section Requests

open IdentityStore

variable {settings : AuthnSettings} {store : AuthnStore} {userId : UserId}

/-- What is asked for besides the handlers of the identity module. -/
def Apart (op : AuthnOp) : Prop := ∀ op', op = .identity op' → ∃ event, op' = .appendAudit event

/-- Neither credentials nor codes change. -/
def SameFactors (identity identity' : IdentityStore) : Prop :=
  identity'.mfaCredentials = identity.mfaCredentials ∧
    identity'.recoveryCodes = identity.recoveryCodes

theorem ends_apart (store : AuthnStore) {α : Type} {p : AuthnProc α} (hp : p.Asks Apart) :
    Proc.Ends (AuthnStore.exec settings)
      (fun _ s => SameFactors store.identity s.identity) p store := by
  refine Proc.ends_of_asks (fun s : AuthnStore => SameFactors store.identity s.identity)
    (fun op s hop hs => ?_) hp ⟨rfl, rfl⟩
  by_cases hcase : ∃ op', op = .identity op'
  · obtain ⟨op', rfl⟩ := hcase
    obtain ⟨event, rfl⟩ := hop op' rfl
    exact hs
  · rw [(AuthnStore.exec_frame settings op s).identity fun op' h => hcase ⟨op', h⟩]
    exact hs

theorem stays_congr {identity identity' identity'' : IdentityStore}
    (h : identity.Stays userId identity') (hsame : SameFactors identity' identity'') :
    identity.Stays userId identity'' := by
  obtain ⟨hcredentials, hcodes⟩ := hsame
  refine ⟨h.sound.congr hcredentials, fun hfactor => ?_, fun hcodes' => ?_⟩
  · exact (hasFactor_congr hcredentials).mpr (h.factor hfactor)
  · rw [hasFactor_congr hcredentials]
    unfold HasCodes at hcodes'
    rw [hcodes] at hcodes'
    exact h.codes hcodes'

/-- The clock is no matter. -/
theorem stays_of_now {s : AuthnStore} (h : store.identityNow.Stays userId s.identityNow) :
    store.identity.Stays userId s.identity :=
  ⟨h.sound.congr rfl, h.factor, h.codes⟩

/-- A step-up keeps the factor, and accepts what `verify` accepts. -/
structure StepUpPost (settings : AuthnSettings) (store : AuthnStore) (userId : UserId)
    (proof : SecondFactorProof) (result : Except String (Except StepUpError StepUpResult))
    (s : AuthnStore) : Prop where
  stays : store.identity.Stays userId s.identity
  accepted : ∀ token, result = .ok (.ok token) → s.identity.HasFactor userId ∨
    PresentsCode settings.crypto store.identity userId proof

theorem stepUpPost_error {proof : SecondFactorProof} {error : StepUpError} {s : AuthnStore}
    (h : store.identity.Stays userId s.identity) :
    StepUpPost settings store userId proof (.ok (.error error)) s :=
  ⟨h, fun _ hresult => by cases hresult⟩

theorem stepUpPost_thrown {proof : SecondFactorProof} {message : String} {s : AuthnStore}
    (h : store.identity.Stays userId s.identity) :
    StepUpPost settings store userId proof (.error message) s :=
  ⟨h, fun _ hresult => by cases hresult⟩

theorem asks_appendAudit (event : AuditEvent) :
    (AuthnProc.ofIdentity (IdentityProc.appendAudit event)).Asks Apart := by
  refine Proc.asks_ask fun op' hop => ⟨event, ?_⟩
  exact (AuthnOp.identity.inj hop).symm

theorem asks_elevate_apart (command : StepUpCommand) (jti : String) (session : Session) :
    (StepUpHandler.elevate settings command jti session).Asks Apart := by
  refine ⟨nofun, fun now => ⟨nofun, fun elevated => ?_⟩⟩
  show Proc.Asks _ (AccessTokens.issue settings _ jti >>= _)
  refine Proc.asks_bind (fun token => ?_) (asks_issue_of (fun _ _ _ hop => by cases hop) rfl)
  exact Proc.asks_bind (fun _ => by trivial) (asks_appendAudit _)

theorem ends_stepUp {sessionId jti : String} {proof : SecondFactorProof}
    (hsound : store.identity.Sound) :
    Proc.Ends (AuthnStore.exec settings) (StepUpPost settings store userId proof)
      (StepUpHandler.execute settings ⟨sessionId, userId.value, proof⟩ jti) store := by
  have hrefl : store.identity.Stays userId store.identity := Stays.refl hsound
  refine Proc.ends_call.mpr ?_
  generalize (AuthnStore.exec settings (.findSession ⟨sessionId⟩) store).2 = found
  cases (found : Option Session) with
  | none => exact stepUpPost_error hrefl
  | some session =>
  show Proc.Ends _ _ (if (session.status ≠ .active || session.userId.value ≠ userId.value) = true
    then _ else _) store
  by_cases hsession : (session.status ≠ .active || session.userId.value ≠ userId.value) = true
  · rw [if_pos hsession]
    exact stepUpPost_error hrefl
  rw [if_neg hsession]
  obtain rfl : session.userId = userId := by
    simp only [Bool.or_eq_true, decide_eq_true_eq, not_or, not_not] at hsession
    exact congrArg UserId.mk hsession.2
  refine Proc.ends_call.mpr ?_
  generalize (AuthnStore.exec settings (.isLocked _ _) _).2 = locked
  cases (locked : Bool) with
  | true => exact stepUpPost_error hrefl
  | false =>
  show Proc.Ends _ _ (AuthnProc.ofIdentity (IdentitySecondFactor.verify settings.crypto
    session.userId proof) >>= _) store
  rw [Proc.ends_bind]
  refine (Proc.ends_via (fun op s => AuthnStore.exec_identityNow op s)
    (ends_verify (show store.identityNow.Sound from hsound.congr rfl))).mono
      fun verified s hverified => ?_
  obtain ⟨hstays', -, haccepted⟩ := hverified
  have hstays := stays_of_now hstays'
  cases verified with
  | error message => exact stepUpPost_thrown hstays
  | ok verified =>
  cases verified with
  | false =>
    -- the failure is counted and audited, and then refused
    refine Proc.ends_call.mpr (Proc.ends_call.mpr ?_)
    have hsame : (s.exec settings (.registerFailure ("mfa:" ++ session.userId.value)
        settings.accountLockout)).1.identity = s.identity :=
      (AuthnStore.exec_frame settings _ s).identity nofun
    exact stepUpPost_error (stays_congr hstays
      ⟨congrArg (·.mfaCredentials) hsame, congrArg (·.recoveryCodes) hsame⟩)
  | true =>
    refine (ends_apart s ?_).mono fun result s' hsame => ?_
    · refine Proc.asks_bind (fun _ => asks_elevate_apart _ _ _) (Proc.asks_ask nofun)
    · refine ⟨stays_congr hstays hsame, fun token _ => ?_⟩
      rw [hasFactor_congr hsame.1]
      exact haccepted rfl

/-- A request that one handler of the identity module answers. -/
theorem ends_ofIdentity {α : Type} {p : IdentityProc α} (f : α → FactorResult)
    (Post : IdentityStore → Prop) (h : Proc.Ends (IdentityStore.exec settings.crypto)
      (fun _ identity => Post identity) p store.identityNow) :
    Proc.Ends (AuthnStore.exec settings) (fun _ s => Post s.identityNow)
      (AuthnProc.ofIdentity p >>= fun result => (return f result : AuthnProc FactorResult))
      store := by
  rw [Proc.ends_bind]
  refine (Proc.ends_via (fun op s => AuthnStore.exec_identityNow op s) h).mono ?_
  intro result s hs
  cases result with
  | ok result => exact hs
  | error message => exact hs

variable (settings userId) in
theorem perform_stepUp (sessionId jti : String) (proof : SecondFactorProof)
    (hsound : store.identity.Sound) :
    store.identity.Stays userId ((FactorRequest.stepUp sessionId proof jti).perform settings
        userId store).1.identity ∧
      ∀ token, ((FactorRequest.stepUp sessionId proof jti).perform settings userId store).2 =
          .ok (.steppedUp (.ok token)) →
        ((FactorRequest.stepUp sessionId proof jti).perform settings userId
            store).1.identity.HasFactor userId ∨
          PresentsCode settings.crypto store.identity userId proof := by
  have h : Proc.Ends (AuthnStore.exec settings) (fun result s =>
      store.identity.Stays userId s.identity ∧ ∀ token, result = .ok (.steppedUp (.ok token)) →
        s.identity.HasFactor userId ∨ PresentsCode settings.crypto store.identity userId proof)
      ((FactorRequest.stepUp sessionId proof jti).program settings userId) store := by
    show Proc.Ends _ _ (StepUpHandler.execute settings _ jti >>= _) store
    rw [Proc.ends_bind]
    refine (ends_stepUp hsound).mono fun result s hpost => ?_
    cases result with
    | error message => exact ⟨hpost.stays, fun _ hresult => by cases hresult⟩
    | ok result =>
      refine ⟨hpost.stays, fun token hresult => hpost.accepted token ?_⟩
      cases hresult
      rfl
  exact h

/-- A request other than `disable` keeps the factor. -/
theorem perform_stays {request : FactorRequest} (hsound : store.identity.Sound)
    (hdisable : request ≠ .disable) (hfresh : ∀ issuer newId newSecret,
      request = .enroll issuer newId newSecret → store.identity.mfaCredentials.get newId = none) :
    store.identity.Stays userId (request.perform settings userId store).1.identity := by
  have hnow : store.identityNow.Sound := hsound.congr rfl
  cases request with
  | enroll issuer newId newSecret =>
    exact stays_of_now (ends_ofIdentity .enrolled (store.identityNow.Stays userId)
      (ends_enroll hnow (hfresh issuer newId newSecret rfl)))
  | activate code steppedUp draws =>
    exact stays_of_now (ends_ofIdentity .activated (store.identityNow.Stays userId)
      (ends_activate rfl hnow))
  | regenerate draws =>
    exact stays_of_now (ends_ofIdentity .regenerated (store.identityNow.Stays userId)
      (ends_regenerate hnow))
  | disable => exact absurd rfl hdisable
  | stepUp sessionId proof jti =>
    exact (perform_stepUp settings userId sessionId jti proof hsound).1

variable (settings userId) in
theorem perform_disable (hsound : store.identity.Sound) :
    (FactorRequest.disable.perform settings userId store).1.identity.Sound ∧
      ((FactorRequest.disable.perform settings userId store).1.identity.HasCodes userId →
        store.identity.HasCodes userId) := by
  have hnow : store.identityNow.Sound := hsound.congr rfl
  have h : Proc.Ends (AuthnStore.exec settings) (fun _ s => s.identityNow.Sound ∧
      (s.identityNow.HasCodes userId → store.identityNow.HasCodes userId))
      (FactorRequest.disable.program settings userId) store :=
    ends_ofIdentity .disabled (fun identity => identity.Sound ∧
      (identity.HasCodes userId → store.identityNow.HasCodes userId)) (ends_disable hnow)
  exact ⟨h.1.congr rfl, h.2⟩

theorem AuthnStore.hasFactor_iff :
    store.hasFactor userId = true ↔ store.identity.HasFactor userId :=
  IdentityStore.hasFactor_iff.symm

namespace Linked

variable {state : FactorState} {step : FactorStep}

theorem of_stays {store' : AuthnStore} (h : Linked userId state)
    (hstays : state.store.identity.Stays userId store'.identity) :
    Linked userId ⟨store', state.disabled && !store'.hasFactor userId⟩ := by
  refine ⟨hstays.sound, fun hcodes => ?_⟩
  by_cases hfactor : store'.identity.HasFactor userId
  · exact Or.inl hfactor
  · -- no factor now, so there was none before, and no code is new
    have hnone : store'.hasFactor userId = false := by
      rw [← Bool.not_eq_true, AuthnStore.hasFactor_iff]
      exact hfactor
    have hdisabled : state.disabled = true := by
      rcases hstays.codes hcodes with hcodes | hfactor'
      · rcases h.codes hcodes with hfactor' | hdisabled
        · exact absurd (hstays.factor hfactor') hfactor
        · exact hdisabled
      · exact absurd hfactor' hfactor
    exact Or.inr (by simp [hdisabled, hnone])

/-- The step lemma. -/
theorem next (h : Linked userId state) (horderly : step.Orderly settings userId state) :
    Linked userId (state.next settings userId step) := by
  cases step with
  | clock nowMs => exact ⟨h.sound, h.codes⟩
  | request request =>
    cases request with
    | disable =>
      obtain ⟨hsound, hcodes⟩ := perform_disable settings userId h.sound
      refine ⟨hsound, fun hcodes' => Or.inr ?_⟩
      show (state.disabled || state.store.hasFactor userId) = true
      rcases h.codes (hcodes hcodes') with hfactor | hdisabled
      · rw [AuthnStore.hasFactor_iff.mpr hfactor, Bool.or_true]
      · rw [hdisabled, Bool.true_or]
    | enroll issuer newId newSecret =>
      refine h.of_stays (perform_stays h.sound nofun fun _ _ _ heq => ?_)
      obtain ⟨-, rfl, -⟩ := FactorRequest.enroll.inj heq
      exact horderly
    | activate code steppedUp draws => exact h.of_stays (perform_stays h.sound nofun nofun)
    | regenerate draws => exact h.of_stays (perform_stays h.sound nofun nofun)
    | stepUp sessionId proof jti => exact h.of_stays (perform_stays h.sound nofun nofun)

/-- The run lemma. -/
theorem run {steps : List FactorStep} (h : Linked userId state)
    (horderly : OrderlyRun settings userId state steps) :
    Linked userId (factorRun settings userId state steps) := by
  induction steps generalizing state with
  | nil => exact h
  | cons step steps ih => exact ih (h.next horderly.1) horderly.2

end Linked

theorem orderlyRun_append {state : FactorState} {before after : List FactorStep}
    (h : OrderlyRun settings userId state (before ++ after)) :
    OrderlyRun settings userId state before ∧
      OrderlyRun settings userId (factorRun settings userId state before) after := by
  induction before generalizing state with
  | nil => exact ⟨trivial, h⟩
  | cons step before ih => exact ⟨⟨h.1, (ih h.2).1⟩, (ih h.2).2⟩

/-- From stores whose unconsumed codes belong to users with an active credential: in every run in
    which no unconsumed recovery code is presented between the disabling of MFA and the next
    activation, a step-up returns a token only where the user has an active credential. -/
theorem step_up_needs_factor (settings : AuthnSettings) (userId : UserId) (state : FactorState)
    (steps : List FactorStep) (hlinked : Linked userId state)
    (horderly : OrderlyRun settings userId state steps) :
    StepUpNeedsFactor settings userId state steps := by
  rintro before sessionId proof jti after result rfl hresult
  obtain ⟨hbefore, hstep, -⟩ := orderlyRun_append horderly
  have hat := hlinked.run hbefore
  obtain ⟨hstays, haccepted⟩ := perform_stepUp settings userId sessionId jti proof hat.sound
  rcases haccepted result hresult with hfactor | hpresents
  · exact hfactor
  · -- the code is not consumed, so there is a factor, or MFA has been disabled
    rcases hat.codes (hasCodes_of_presents hpresents) with hfactor | hdisabled
    · exact hstays.factor hfactor
    · exact absurd hpresents (hstep hdisabled)

end Requests

/-! ### A code that outlives its factor -/

/-- Ann has logged in, and has no second factor yet. -/
def annEnrollState : FactorState :=
  ⟨{ annAuthnStore with
      sessions := ⟨[⟨⟨"s1"⟩, ⟨"ann"⟩, none, 1, 0, .active, none, none, none, 0, 0, 99999999, none⟩],
        by decide⟩
      identity := { annAuthnStore.identity with mfaCredentials := Table.empty } }, false⟩

theorem annEnrollState_linked : Linked ⟨"ann"⟩ annEnrollState := by
  refine ⟨⟨?_, ?_⟩, ?_⟩
  · rintro userId id id' ⟨row, hrow, -⟩
    cases hrow
  · intro id row hrow
    cases hrow
  · rintro ⟨row, hrow, -⟩
    cases hrow

/-- She enrolls, activates with one recovery code, and steps up with it.  After she has disabled MFA
    the code is presented again, in vain, and she enrolls anew and steps up with a time code. -/
def annStepsUp : List FactorStep :=
  [.request (.enroll "accesscore" "c1" []), .request (.activate "000000" false [("r1", [])]),
    .request (.stepUp "s1" (.recovery "22222-22222") "j1"), .request .disable,
    .request (.stepUp "s1" (.recovery "22222-22222") "j2"),
    .request (.enroll "accesscore" "c2" []), .request (.activate "000000" false [("r2", [1])]),
    .clock 960000, .request (.stepUp "s1" (.totp "000000") "j3")]

/-- The code is presented for the first time after MFA has been disabled. -/
def annStepsUpDisabled : List FactorStep :=
  [.request (.enroll "accesscore" "c1" []), .request (.activate "000000" false [("r1", [])]),
    .request .disable, .request (.stepUp "s1" (.recovery "22222-22222") "j1")]

theorem step_up_needs_factor_annStepsUp :
    StepUpNeedsFactor annSettings ⟨"ann"⟩ annEnrollState annStepsUp :=
  step_up_needs_factor annSettings ⟨"ann"⟩ annEnrollState annStepsUp annEnrollState_linked
    (by decide +kernel)

/-- The code is accepted although there is no active credential any more. -/
theorem step_up_without_factor :
    ¬ StepUpNeedsFactor annSettings ⟨"ann"⟩ annEnrollState annStepsUpDisabled := by
  intro hneeds
  have hfactor := hneeds (annStepsUpDisabled.take 3) "s1"
    (.recovery "22222-22222") "j1" [] _ rfl rfl
  have hnone : (((FactorRequest.stepUp "s1" (.recovery "22222-22222") "j1").perform annSettings
      ⟨"ann"⟩ (factorRun annSettings ⟨"ann"⟩ annEnrollState
        (annStepsUpDisabled.take 3)).store).1.hasFactor ⟨"ann"⟩) = false := by decide +kernel
  rw [AuthnStore.hasFactor_iff.mpr hfactor] at hnone
  cases hnone

end AccessCore
