/-
  The second-factor requests against each other.

  Every save writes the whole row from a copy read earlier, so what it does depends on what the
  row has become since.  `Unreplayed` says when a save does not undo what happened in between: the
  step it records is above the one that is stored.  Along runs whose saves all do, a time step is
  used once (`step_single_use`).
-/
import AccessCore.Identity.MfaHandlers

namespace AccessCore

open Interleave

inductive MfaCommand where
  | verify (userId : UserId) (proof : SecondFactorProof)
  | enroll (issuer : String) (userId : UserId) (newId : String) (newSecret : List UInt8)
  | activate (input : ActivateMfaInput) (draws : List (String × List UInt8))
  | disable (userId : UserId)

inductive MfaResult where
  | verified (accepted : Bool)
  | enrolled (result : Except EnrollMfaError EnrollMfaResult)
  | activated (result : Except ActivateMfaError (List String))
  | disabled (result : Except DisableMfaError Unit)

/-- The requests of all users, with a clock that may read anything. -/
def mfaMachine (crypto : Crypto) :
    Machine MfaCommand Int IdentityOp IdentityOp.Answer IdentityStore MfaResult where
  exec _ := IdentityStore.exec crypto
  event nowMs store := { store with nowMs := nowMs }
  program
    | .verify userId proof => do
      let accepted ← IdentitySecondFactor.verify crypto userId proof
      return .verified accepted
    | .enroll issuer userId newId newSecret => do
      let result ← EnrollMfaHandler.execute issuer userId newId newSecret
      return .enrolled result
    | .activate input draws => do
      let result ← ActivateMfaHandler.execute crypto input draws
      return .activated result
    | .disable userId => do
      let result ← DisableMfaHandler.execute userId
      return .disabled result

abbrev MfaWorld := World IdentityOp IdentityStore
abbrev MfaSystem := System MfaCommand IdentityOp IdentityOp.Answer IdentityStore MfaResult
abbrev MfaMoves := List (Move MfaCommand Int)

/-- A run from a store. -/
def mfaRun (crypto : Crypto) (store : IdentityStore) (moves : MfaMoves) : MfaSystem :=
  (mfaMachine crypto).run ⟨⟨store, []⟩, []⟩ moves

/-- The credential an operation saves. -/
def IdentityOp.saved : IdentityOp → Option MfaCredential
  | .saveCredential credential => some credential
  | _ => none

theorem IdentityOp.eq_of_saved {op : IdentityOp} {credential : MfaCredential}
    (h : op.saved = some credential) : op = .saveCredential credential := by
  cases op with
  | saveCredential saved => rw [Option.some.inj h]
  | _ => cases h

/-- Every other operation leaves the credentials as they are. -/
theorem IdentityStore.exec_mfaCredentials {crypto : Crypto} {store : IdentityStore}
    {op : IdentityOp} (h : op.saved = none) :
    (store.exec crypto op).1.mfaCredentials = store.mfaCredentials := by
  cases op with
  | saveCredential credential => cases h
  | replaceCodes found codes =>
    show (store.replaceCodes found codes).1.mfaCredentials = _
    unfold IdentityStore.replaceCodes
    simp only
    split_ifs <;> rfl
  | consumeRecoveryCode code =>
    show (store.consumeRecoveryCode code).1.mfaCredentials = _
    unfold IdentityStore.consumeRecoveryCode
    split
    · split_ifs <;> rfl
    · rfl
  | _ => rfl

/-- A save that records a time step finds an earlier one stored, or none. -/
def Unreplayed (store : IdentityStore) (op : IdentityOp) : Prop :=
  ∀ credential ∈ op.saved, (store.saveCredential credential).2 = true →
    ∀ row ∈ store.mfaCredentials.get credential.id, ∀ last ∈ row.lastUsedStep,
      ∃ step ∈ credential.lastUsedStep, last < step

instance (store : IdentityStore) (op : IdentityOp) : Decidable (Unreplayed store op) := by
  unfold Unreplayed
  infer_instance

/-- Cryptography to run things with: every code is the one of a constant digest. -/
def constantCrypto : Crypto where
  hmacSha1 _ _ := List.replicate 20 0
  encrypt _ := "ct"
  decrypt _ := some []
  hash text := text

/-- Ann's active credential. -/
def annTotp : MfaCredential :=
  ⟨"c1", ⟨"ann"⟩, .active, "ct", "SHA1", 6, 30, none, 0, some 0, none⟩

def annStore : IdentityStore :=
  ⟨[⟨⟨"ann"⟩, "ann@example.com", "hash", .active, some 0, 0, 0⟩], ⟨[annTotp], by decide⟩,
    Table.empty, [], 900000⟩

/-! ## Time steps -/

/-- The credential and the time step that an event of the log recorded. -/
def savedStep (event : Event IdentityOp IdentityStore) : Option (String × Int) :=
  event.op.saved.bind fun credential =>
    if (event.before.saveCredential credential).2 then
      credential.lastUsedStep.map fun step => (credential.id, step)
    else none

/-- A call of `verify` returned `true` after recording a time step of a credential. -/
def Accepted (sys : MfaSystem) (i : Nat) (id : String) (step : Int) : Prop :=
  ∃ call, sys.calls[i]? = some call ∧ call.result = some (.verified true) ∧
    ∃ event ∈ sys.world.own i, savedStep event = some (id, step)

/-- Each time step of a credential is accepted by one call at most. -/
def SingleUse (sys : MfaSystem) : Prop :=
  ∀ id step i j, Accepted sys i id step → Accepted sys j id step → i = j

/-- No stored last step is lower than before. -/
def StepsGrow (store store' : IdentityStore) : Prop :=
  ∀ id, ∀ row ∈ store.mfaCredentials.get id, ∃ row' ∈ store'.mfaCredentials.get id,
    ∀ last ∈ row.lastUsedStep, ∃ last' ∈ row'.lastUsedStep, last ≤ last'

/-- Verifications of one user's second factor, whose saves find earlier steps. -/
def verifying (userId : UserId) : Conduct MfaCommand Int IdentityOp IdentityStore where
  start command _ := ∃ proof, command = .verify userId proof
  ask _ op w := Unreplayed w.state op
  event _ _ := True

instance (userId : UserId) : ∀ command : MfaCommand,
    Decidable (∃ proof, command = .verify userId proof)
  | .verify userId' proof =>
    decidable_of_iff (userId' = userId)
      ⟨fun h => ⟨proof, by rw [h]⟩, fun ⟨_, h⟩ => (MfaCommand.verify.inj h).1⟩
  | .enroll .. => .isFalse fun ⟨_, h⟩ => nomatch h
  | .activate .. => .isFalse fun ⟨_, h⟩ => nomatch h
  | .disable .. => .isFalse fun ⟨_, h⟩ => nomatch h

instance (crypto : Crypto) (userId : UserId) (sys : MfaSystem) (moves : MfaMoves) :
    Decidable ((mfaMachine crypto).Along (verifying userId) sys moves) :=
  have : ∀ c w, Decidable ((verifying userId).start c w) := fun command _ =>
    inferInstanceAs (Decidable (∃ proof, command = .verify userId proof))
  have : ∀ i op w, Decidable ((verifying userId).ask i op w) := fun _ op w =>
    inferInstanceAs (Decidable (Unreplayed w.state op))
  have : ∀ e w, Decidable ((verifying userId).event e w) := fun _ _ => .isTrue trivial
  Machine.Along.decidable (mfaMachine crypto) (verifying userId) sys moves

/-- What is known of the recorded steps: the stored step of a credential is at least each of them,
    and a later one is above every earlier one. -/
structure Recorded (w : MfaWorld) : Prop where
  below : ∀ event ∈ w.log, ∀ id step, savedStep event = some (id, step) →
    ∃ row ∈ w.state.mfaCredentials.get id, ∃ last ∈ row.lastUsedStep, step ≤ last
  above : w.log.Pairwise fun later earlier => ∀ id step step',
    savedStep later = some (id, step') → savedStep earlier = some (id, step) → step < step'

theorem savedStep_some {event : Event IdentityOp IdentityStore} {id : String} {step : Int}
    (h : savedStep event = some (id, step)) : ∃ credential,
      event.op = .saveCredential credential ∧ credential.id = id ∧
      credential.lastUsedStep = some step ∧ (event.before.saveCredential credential).2 = true := by
  obtain ⟨credential, hsaved, h⟩ := Option.bind_eq_some_iff.mp h
  split_ifs at h with hok
  obtain ⟨last, hlast, heq⟩ := Option.map_eq_some_iff.mp h
  obtain ⟨rfl, rfl⟩ := Prod.mk.inj heq
  exact ⟨credential, IdentityOp.eq_of_saved hsaved, rfl, hlast, hok⟩

namespace StepsGrow

theorem refl (store : IdentityStore) : StepsGrow store store :=
  fun _ row hrow => ⟨row, hrow, fun last hlast => ⟨last, hlast, le_rfl⟩⟩

theorem trans {a b c : IdentityStore} (hab : StepsGrow a b) (hbc : StepsGrow b c) :
    StepsGrow a c := by
  intro id row hrow
  obtain ⟨row', hrow', hle⟩ := hab id row hrow
  obtain ⟨row'', hrow'', hle'⟩ := hbc id row' hrow'
  refine ⟨row'', hrow'', fun last hlast => ?_⟩
  obtain ⟨last', hlast', h⟩ := hle last hlast
  obtain ⟨last'', hlast'', h'⟩ := hle' last' hlast'
  exact ⟨last'', hlast'', h.trans h'⟩

theorem exec {crypto : Crypto} {store : IdentityStore} {op : IdentityOp}
    (h : Unreplayed store op) : StepsGrow store (store.exec crypto op).1 := by
  cases hop : op.saved with
  | none =>
    intro id row hrow
    rw [IdentityStore.exec_mfaCredentials hop]
    exact refl store id row hrow
  | some credential =>
    obtain rfl := IdentityOp.eq_of_saved hop
    show StepsGrow store (store.saveCredential credential).1
    rcases store.saveCredential_cases credential with hsame | ⟨hsaved, hget⟩
    · rw [hsame]
      exact refl store
    · intro id row hrow
      rw [hget]
      by_cases hid : id = credential.id
      · subst hid
        rw [if_pos rfl]
        refine ⟨_, rfl, fun last hlast => ?_⟩
        obtain ⟨step, hstep, hlt⟩ := h credential rfl hsaved row hrow last hlast
        rw [IdentityStore.savedRow_lastUsedStep]
        exact ⟨step, hstep, hlt.le⟩
      · rw [if_neg hid]
        exact refl store id row hrow

end StepsGrow

namespace Recorded

/-- The step lemma. -/
theorem act {crypto : Crypto} {i : Nat} {op : IdentityOp} {w : MfaWorld} (h : Recorded w)
    (hask : Unreplayed w.state op) : Recorded ((mfaMachine crypto).act i op w) := by
  have hgrow : StepsGrow w.state ((mfaMachine crypto).act i op w).state := StepsGrow.exec hask
  -- what was recorded before is still below
  have hbefore : ∀ event ∈ w.log, ∀ id step, savedStep event = some (id, step) →
      ∃ row ∈ ((mfaMachine crypto).act i op w).state.mfaCredentials.get id,
        ∃ last ∈ row.lastUsedStep, step ≤ last := by
    intro event hevent id step hstep
    obtain ⟨row, hrow, last, hlast, hle⟩ := h.below event hevent id step hstep
    obtain ⟨row', hrow', hgrows⟩ := hgrow id row hrow
    obtain ⟨last', hlast', hle'⟩ := hgrows last hlast
    exact ⟨row', hrow', last', hlast', hle.trans hle'⟩
  constructor
  · intro event hevent id step hstep
    rcases List.mem_cons.mp hevent with rfl | hevent
    · obtain ⟨credential, rfl, rfl, hlast, hok⟩ := savedStep_some hstep
      show ∃ row ∈ (w.state.saveCredential credential).1.mfaCredentials.get credential.id, _
      rcases w.state.saveCredential_cases credential with hsame | ⟨_, hget⟩
      · rw [hsame] at hok
        cases hok
      · rw [hget, if_pos rfl]
        refine ⟨_, rfl, step, ?_, le_rfl⟩
        rw [IdentityStore.savedRow_lastUsedStep]
        exact hlast
    · exact hbefore event hevent id step hstep
  · refine List.pairwise_cons.mpr ⟨?_, h.above⟩
    intro earlier hearlier id step step' hlater hstep
    obtain ⟨credential, rfl, rfl, hlast, hok⟩ := savedStep_some hlater
    obtain ⟨row, hrow, last, hrowlast, hle⟩ := h.below earlier hearlier _ step hstep
    obtain ⟨new, hnew, hlt⟩ := hask credential rfl hok row hrow last hrowlast
    obtain rfl := Option.some.inj (hlast.symm.trans hnew)
    exact hle.trans_lt hlt

theorem run {crypto : Crypto} {userId : UserId} {sys : MfaSystem} {moves : MfaMoves}
    (h : Recorded sys.world) (hok : (mfaMachine crypto).Along (verifying userId) sys moves) :
    Recorded ((mfaMachine crypto).run sys moves).world :=
  Machine.run_keeps (R := fun w w' => Recorded w → Recorded w') (fun _ => id)
    (fun huv hvw hu => hvw (huv hu)) (fun _ _ _ hask hw => act hw hask)
    (fun _ _ _ hw => ⟨hw.below, hw.above⟩) hok h

end Recorded

/-- What an accepting verification has recorded: a step that its code matches. -/
def HasMatched (crypto : Crypto) (code : String) (i : Nat) (w : MfaWorld) : Prop :=
  ∃ event ∈ w.own i, ∃ id step, savedStep event = some (id, step) ∧
    ∃ secret now last, Rfc6238Totp.verify crypto.hmacSha1 secret code now driftWindow last =
      .ok ⟨true, step⟩

def MatchedWhenTrue (crypto : Crypto) (code : String) (i : Nat) : MfaResult → MfaWorld → Prop
  | .verified true, w => HasMatched crypto code i w
  | _, _ => True

/-- From the clock reading on, a verification records the step it matches before it returns. -/
theorem safe_record {crypto : Crypto} {code : String} {i : Nat} {credential : MfaCredential}
    {secret : List UInt8} {now : Int} {w : MfaWorld}
    {verification : Except String Rfc6238Totp.Verification}
    (h : Rfc6238Totp.verify crypto.hmacSha1 secret code now driftWindow credential.lastUsedStep =
      verification) :
    Safe (mfaMachine crypto) Conduct.free (fun _ => True) (fun _ _ => True) i
      (MatchedWhenTrue crypto code i)
      ((IdentityProc.ofExcept verification >>= fun verification =>
        (if !verification.valid then return false
        else do
          let used ← IdentityProc.ofExcept (credential.registerUse verification.step)
          MfaCredentials.save used
          return true : IdentityProc Bool)) >>= fun accepted => return MfaResult.verified accepted)
      w := by
  cases verification with
  | error message => trivial
  | ok verification =>
    obtain ⟨valid, step⟩ := verification
    cases valid with
    | false => trivial
    | true =>
      show Safe _ _ _ _ i _ ((IdentityProc.ofExcept (credential.registerUse step) >>= _) >>= _) _
      cases hused : credential.registerUse step with
      | error message => trivial
      | ok used =>
        intro w' _ _ _ _
        refine ⟨trivial, trivial, ?_⟩
        show Safe _ _ _ _ i _
          (((if (w'.state.saveCredential used).2 = true then _ else _) >>= _) >>= _) _
        split_ifs with hsaved
        · -- the event of this save
          refine ⟨⟨i, .saveCredential used, w'.state⟩, ?_, used.id, step, ?_, secret, now, _, h⟩
          · rw [Machine.own_act, if_pos rfl]
            exact List.mem_cons_self ..
          · obtain ⟨_, _, rfl⟩ := MfaCredential.registerUse_ok hused
            show (if (w'.state.saveCredential _).2 = true then _ else none) = _
            rw [if_pos hsaved]
            rfl
        · trivial

/-- The outline: a verification that returns `true` has recorded a step its code matches. -/
def matching (crypto : Crypto) : Outline (mfaMachine crypto) Conduct.free where
  Inv _ := True
  Rely _ _ := True
  refl _ := trivial
  trans _ _ := trivial
  happen _ _ _ _ := ⟨trivial, trivial⟩
  Post
    | .verify _ (.totp code), i, _, result, w => MatchedWhenTrue crypto code i result w
    | _, _, _, _, _ => True
  safe command i w _ _ _ := by
    cases command with
    | verify userId proof =>
      cases proof with
      | recovery value => exact safe_trivial _ _
      | totp value =>
        intro w₁ _ _ _ _
        refine ⟨trivial, trivial, ?_⟩
        show Safe _ _ _ _ i _ ((match w₁.state.findByStatus userId .active with
          | none => _
          | some credential => _) >>= _) _
        cases w₁.state.findByStatus userId .active with
        | none => trivial
        | some credential =>
          intro w₂ _ _ _ _
          refine ⟨trivial, trivial, ?_⟩
          show Safe _ _ _ _ i _ (((match crypto.decrypt credential.secretCiphertext with
            | some secret => _
            | none => _) >>= _) >>= _) _
          cases crypto.decrypt credential.secretCiphertext with
          | none => trivial
          | some secret =>
            intro w₃ _ _ _ _
            refine ⟨trivial, trivial, ?_⟩
            exact safe_record rfl
    | enroll issuer userId newId newSecret => exact safe_trivial _ _
    | activate input draws => exact safe_trivial _ _
    | disable userId => exact safe_trivial _ _

/-- In a run of one user's verifications whose saves all find earlier steps, no stored step is
    lowered, a time step of a credential is accepted by one call at most, and what a call accepts
    is a step that its code matches. -/
theorem step_single_use (crypto : Crypto) (store : IdentityStore) (userId : UserId)
    (moves : MfaMoves)
    (hok : (mfaMachine crypto).Along (verifying userId) ⟨⟨store, []⟩, []⟩ moves) :
    (∀ before middle after, moves = before ++ middle ++ after →
      StepsGrow (mfaRun crypto store before).world.state
        (mfaRun crypto store (before ++ middle)).world.state) ∧
    SingleUse (mfaRun crypto store moves) ∧
    (∀ i call code, (mfaRun crypto store moves).calls[i]? = some call →
      call.command = .verify userId (.totp code) → call.result = some (.verified true) →
        ∃ id step, Accepted (mfaRun crypto store moves) i id step ∧ ∃ secret now last,
          Rfc6238Totp.verify crypto.hmacSha1 secret code now driftWindow last =
            .ok ⟨true, step⟩) := by
  refine ⟨?_, ?_, ?_⟩
  · rintro before middle after rfl
    rw [List.append_assoc] at hok
    have hmiddle := (Machine.along_append.mp (Machine.along_append.mp hok).2).1
    rw [mfaRun, mfaRun, Machine.run_append]
    have hkeeps : ∀ i op w, (verifying userId).ask i op w →
        StepsGrow w.state ((mfaMachine crypto).act i op w).state :=
      fun _ _ _ hask => StepsGrow.exec hask
    exact Machine.run_keeps (R := fun w w' => StepsGrow w.state w'.state)
      (fun _ => StepsGrow.refl _) StepsGrow.trans hkeeps (fun _ _ _ => StepsGrow.refl _) hmiddle
  · rintro id step i j ⟨_, _, _, event, hevent, hstep⟩ ⟨_, _, _, event', hevent', hstep'⟩
    have hrecorded : Recorded (mfaRun crypto store moves).world :=
      Recorded.run ⟨by simp, by simp⟩ hok
    obtain ⟨hmem, hi⟩ := List.mem_filter.mp hevent
    obtain ⟨hmem', hj⟩ := List.mem_filter.mp hevent'
    obtain rfl := of_decide_eq_true hi
    obtain rfl := of_decide_eq_true hj
    -- two events recording one step are the same event
    by_contra hne
    have hdistinct : event ≠ event' := fun heq => hne (congrArg Event.caller heq)
    have hsymm : (mfaRun crypto store moves).world.log.Pairwise fun a b =>
        ¬ (savedStep a = some (id, step) ∧ savedStep b = some (id, step)) := by
      refine hrecorded.above.imp fun habove => ?_
      rintro ⟨hlater, hearlier⟩
      exact lt_irrefl step (habove id step step hlater hearlier)
    have : Std.Symm fun a b : Event IdentityOp IdentityStore =>
        ¬ (savedStep a = some (id, step) ∧ savedStep b = some (id, step)) :=
      ⟨fun _ _ h hboth => h hboth.symm⟩
    exact hsymm.forall hmem hmem' hdistinct ⟨hstep, hstep'⟩
  · intro i call code hcall hcommand hresult
    have hinit : (matching crypto).Good ⟨⟨store, []⟩, []⟩ := Outline.Good.init trivial rfl
    obtain ⟨_, v, _, hown, hpost⟩ := (hinit.run
      (Machine.along_free _ moves)).1.returned hcall hresult
    rw [hcommand] at hpost
    obtain ⟨event, hevent, id, step, hstep, hmatch⟩ := hpost
    rw [← hown] at hevent
    exact ⟨id, step, ⟨call, hcall, hresult, event, hevent, hstep⟩, hmatch⟩

/-- Ann's code is verified, and then presented again. -/
def verifiedTwice : MfaMoves :=
  [.start (.verify ⟨"ann"⟩ (.totp "000000")), .run 0, .run 0, .run 0, .run 0,
    .start (.verify ⟨"ann"⟩ (.totp "000000")), .run 1, .run 1, .run 1, .run 1]

/-- The same two requests, which both read the credential before either saves it. -/
def verifiedAtOnce : MfaMoves :=
  [.start (.verify ⟨"ann"⟩ (.totp "000000")), .start (.verify ⟨"ann"⟩ (.totp "000000")),
    .run 0, .run 1, .run 0, .run 0, .run 1, .run 1, .run 0, .run 1]

theorem step_single_use_verifiedTwice : SingleUse (mfaRun constantCrypto annStore verifiedTwice) :=
  (step_single_use constantCrypto annStore ⟨"ann"⟩ verifiedTwice (by decide)).2.1

/-- Both requests are accepted with the same step. -/
theorem step_used_twice : ¬ SingleUse (mfaRun constantCrypto annStore verifiedAtOnce) := by
  intro hsingle
  have hfirst : Accepted (mfaRun constantCrypto annStore verifiedAtOnce) 0 "c1" 29 :=
    ⟨_, rfl, rfl, _, List.mem_cons_self .., by decide⟩
  have hsecond : Accepted (mfaRun constantCrypto annStore verifiedAtOnce) 1 "c1" 29 :=
    ⟨_, rfl, rfl, _, List.mem_cons_self .., by decide⟩
  exact absurd (hsingle "c1" 29 0 1 hfirst hsecond) (by decide)

end AccessCore
