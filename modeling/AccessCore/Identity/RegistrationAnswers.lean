/-
  What a registration tells about the address it is for.

  A stranger may register any address, so the answer must not depend on whether there is an account
  with it, and neither should the time it takes: hashing a password is what takes time, so where the
  address is taken the handler does as much work on a decoy (`dummyVerify`).

  `registration_reveals_nothing`: over every run, whatever the other calls do, a registration that
  returns gives the answer that its command alone decides, after one computation of a hash if the
  command is valid and none otherwise.
-/
import AccessCore.Identity.Registration
import AccessCore.Identity.PasswordRaces
import AccessCore.Authn.RefreshSafety

namespace AccessCore

open Interleave

/-! ## Answer and work -/

/-- The answer that the command decides. -/
def RegisterUserHandler.verdict (settings : AuthnSettings) (command : RegisterUserCommand) :
    Except RegisterUserError Unit :=
  match Email.create settings command.email with
  | none => .error .invalidEmail
  | some _ =>
    match Password.create command.password with
    | .error _ => .error .invalidPassword
    | .ok _ => .ok ()

/-- The operations that compute a hash of a password. -/
def hashesPassword : RegistrationOp → Bool
  | .account (.hashPassword _ _) => true
  | .dummyVerify _ => true
  | _ => false

/-- How many hashes a call has computed. -/
def hashed (w : RegistrationWorld) (i : Nat) : Nat :=
  (w.own i).countP fun event => hashesPassword event.op

/-- How many hashes belong to an answer. -/
def workFor : Except RegisterUserError Unit → Nat
  | .ok _ => 1
  | .error _ => 0

section Calls

variable {settings : AuthnSettings} {crypto : AccountCrypto} {w : RegistrationWorld} {i : Nat}

theorem hashed_act (op : RegistrationOp) :
    hashed ((registrationMachine settings crypto).act i op w) i =
      hashed w i + if hashesPassword op then 1 else 0 := by
  unfold hashed
  rw [Machine.own_act, if_pos rfl, List.countP_cons]

/-- A program that returns the answer after so much work. -/
abbrev AnswersAfter (settings : AuthnSettings) (crypto : AccountCrypto) (i : Nat)
    (answer : Except RegisterUserError Unit) (work : Nat) :
    RegistrationProc (Except RegisterUserError Unit) → RegistrationWorld → Prop :=
  Safe (registrationMachine settings crypto) Conduct.free (fun _ => True) (fun _ _ => True) i
    fun result w => result = answer ∧ hashed w i = work

/-- One operation, whatever it is answered, and the rest. -/
theorem answersAfter_call {op : RegistrationOp}
    {next : op.Answer → RegistrationProc (Except RegisterUserError Unit)}
    {answer : Except RegisterUserError Unit} {work before after : Nat}
    (hbefore : hashed w i = before)
    (hafter : before + (if hashesPassword op then 1 else 0) = after)
    (hnext : ∀ w' got, hashed w' i = after →
      AnswersAfter settings crypto i answer work (next got) w') :
    AnswersAfter settings crypto i answer work (.call op next) w := by
  intro w' _ _ hown _
  refine ⟨trivial, trivial, hnext _ _ ?_⟩
  have hsame : hashed w' i = before := by
    unfold hashed at hbefore ⊢
    rw [hown, hbefore]
  rw [hashed_act, hsame, hafter]

/-- The token is stored and sent without another hash of a password. -/
theorem answersAfter_mailToken {kind : MailKind} {userId : UserId} {email : String}
    {now ttlMinutes : Int} {draws : TokenDraws}
    {answer : Except RegisterUserError Unit} {work : Nat}
    (hwork : hashed w i = work) : AnswersAfter settings crypto i answer work
      (RegistrationProc.mailToken crypto kind userId email now ttlMinutes draws >>= fun _ =>
        .done answer) w := by
  refine answersAfter_call hwork rfl fun w₁ saved h₁ => ?_
  cases (saved : Bool) with
  | false => trivial
  | true => exact answersAfter_call h₁ rfl fun w₂ _ h₂ => ⟨rfl, h₂⟩

theorem answers_register (command : RegisterUserCommand) (draws : RegisterDraws)
    (hnone : hashed w i = 0) :
    AnswersAfter settings crypto i (RegisterUserHandler.verdict settings command)
      (workFor (RegisterUserHandler.verdict settings command))
      (RegisterUserHandler.execute settings crypto command draws) w := by
  unfold RegisterUserHandler.execute RegisterUserHandler.verdict
  cases Email.create settings command.email with
  | none => exact ⟨rfl, hnone⟩
  | some email =>
  cases Password.create command.password with
  | error e => exact ⟨rfl, hnone⟩
  | ok password =>
  refine answersAfter_call hnone rfl fun w₁ existing h₁ => ?_
  cases (existing : Option User) with
  | some user =>
    -- the decoy
    exact answersAfter_call h₁ rfl fun w₂ _ h₂ => ⟨rfl, h₂⟩
  | none =>
    refine answersAfter_call h₁ rfl fun w₂ passwordHash h₂ => ?_
    refine answersAfter_call h₂ rfl fun w₃ now h₃ => ?_
    refine answersAfter_call h₃ rfl fun w₄ saved h₄ => ?_
    cases (saved : Bool) with
    | false => trivial
    | true =>
      show AnswersAfter settings crypto i _ _
        (RegistrationProc.mailToken crypto _ _ _ _ _ _ >>= fun _ => .done _) _
      exact answersAfter_mailToken h₄

end Calls

/-- What a call that has returned has answered, and how much work it was. -/
def AnswerOnly (settings : AuthnSettings) (command : RegistrationCommand) (i : Nat)
    (result : RegistrationResult) (w : RegistrationWorld) : Prop :=
  ∀ register draws, command = .register register draws →
    result = .registered (RegisterUserHandler.verdict settings register) ∧
      hashed w i = workFor (RegisterUserHandler.verdict settings register)

/-- The outline: nothing is asked of the others. -/
def answersOutline (settings : AuthnSettings) (crypto : AccountCrypto) :
    Outline (registrationMachine settings crypto) Conduct.free where
  Inv _ := True
  Rely _ _ := True
  refl _ := trivial
  trans _ _ := trivial
  happen _ _ _ _ := ⟨trivial, trivial⟩
  Post command i _ result w := AnswerOnly settings command i result w
  safe command i w _ _ hown := by
    cases command with
    | register command draws =>
      show Safe _ _ _ _ i _ (RegisterUserHandler.execute _ _ _ _ >>= _) _
      rw [safe_bind]
      have hnone : hashed w i = 0 := by
        unfold hashed
        rw [hown]
        rfl
      refine (answers_register command draws hnone).mono fun result w' h => ?_
      rintro register draws' heq
      obtain ⟨rfl, rfl⟩ := RegistrationCommand.register.inj heq
      exact ⟨congrArg RegistrationResult.registered h.1, h.2⟩
    | requestReset command draws =>
      exact (safe_trivial _ w).mono fun _ _ _ _ _ heq => nomatch heq
    | account command =>
      exact (safe_trivial _ w).mono fun _ _ _ _ _ heq => nomatch heq

/-- In every run from every store: a registration that returns gives the answer that its command
    decides, and has computed one hash for a valid command, whether or not the address is taken. -/
theorem registration_reveals_nothing (settings : AuthnSettings) (crypto : AccountCrypto)
    (store : RegistrationStore) (moves : RegistrationMoves) (i : Nat)
    (call : Call RegistrationCommand RegistrationOp RegistrationOp.Answer RegistrationStore
      RegistrationResult)
    (command : RegisterUserCommand) (draws : RegisterDraws) (result : RegistrationResult)
    (hcall : (registrationRun settings crypto store moves).calls[i]? = some call)
    (hcommand : call.command = .register command draws) (hresult : call.result = some result) :
    result = .registered (RegisterUserHandler.verdict settings command) ∧
      hashed (registrationRun settings crypto store moves).world i =
        workFor (RegisterUserHandler.verdict settings command) := by
  have hgood := (Outline.Good.run (O := answersOutline settings crypto)
    (Outline.Good.init trivial rfl) (Machine.along_free ⟨⟨store, []⟩, []⟩ moves)).1
  obtain ⟨-, v, -, hown, hpost⟩ := hgood.returned hcall hresult
  obtain ⟨hanswer, hwork⟩ := hpost command draws hcommand
  refine ⟨hanswer, ?_⟩
  have hsame : hashed (registrationRun settings crypto store moves).world i = hashed v i :=
    congrArg (List.countP fun event : RegistrationEvent => hashesPassword event.op) hown
  rw [hsame, hwork]

/-- Ann's address is registered once more when she has an account. -/
def annRegisteredAgain : RegistrationMoves :=
  .start (.register ⟨"ann@example.com", "first-password"⟩ ⟨⟨"ann"⟩, "1", ⟨"t1", "verify-text"⟩⟩) ::
    List.replicate 6 (.run 0) ++
  .start (.register ⟨"ann@example.com", "other-password"⟩ ⟨⟨"bea"⟩, "2", ⟨"t2", "other-text"⟩⟩) ::
    List.replicate 2 (.run 1)

theorem registration_reveals_nothing_ann :
    RegistrationResult.registered (.ok ()) =
        .registered (RegisterUserHandler.verdict annSettings
          ⟨"ann@example.com", "other-password"⟩) ∧
      hashed (registrationRun annSettings plainCrypto .empty annRegisteredAgain).world 1 =
        workFor (RegisterUserHandler.verdict annSettings ⟨"ann@example.com", "other-password"⟩) :=
  registration_reveals_nothing annSettings plainCrypto .empty annRegisteredAgain
    1 _ _ _ _ rfl rfl rfl

end AccessCore
