/-
  The lifecycle of the credentials, over every interleaving of the second-factor requests.

  1. What the handlers save (`asks_mfa`): a new credential, under the id that the request has drawn
     and as the last thing it does; or one that the request has read in use.
  2. So a stored credential was there from the start, or has been enrolled (`Sourced`), and where
     the drawn ids are new, a new credential never meets a row (`enrolled_fresh`).
  3. That leaves the saves that make a credential active.  Everything moves forward exactly when
     none of them finds a row that has been revoked since the request has read it
     (`lifecycle_forward`).
-/
import AccessCore.Identity.MfaRaces

namespace AccessCore

open Interleave

/-! ## Moving forward -/

/-- Pending, then active, then revoked. -/
def MfaStatus.rank : MfaStatus → Nat
  | pending => 0
  | active => 1
  | revoked => 2

/-- Each credential is still there, in the same status or a later one. -/
def Forward (store store' : IdentityStore) : Prop :=
  ∀ id, ∀ row ∈ store.mfaCredentials.get id, ∃ row' ∈ store'.mfaCredentials.get id,
    row.status.rank ≤ row'.status.rank

/-- Between any two moments of a run, every credential moves forward. -/
def LifecycleForward (crypto : Crypto) (store : IdentityStore) (moves : MfaMoves) : Prop :=
  ∀ before middle after, moves = before ++ middle ++ after →
    Forward (mfaRun crypto store before).world.state
      (mfaRun crypto store (before ++ middle)).world.state

/-- The id of a new credential that a command draws. -/
def MfaCommand.newId : MfaCommand → Option String
  | .enroll _ _ newId _ => some newId
  | _ => none

/-- The ids that a run draws are new, as random UUIDs are: no id is drawn twice, and no stored
    credential has it. -/
def FreshDraws (store : IdentityStore) (moves : MfaMoves) : Prop :=
  ((Machine.commands moves).filterMap MfaCommand.newId).Nodup ∧
    ∀ id ∈ (Machine.commands moves).filterMap MfaCommand.newId, store.mfaCredentials.get id = none

/-- The credential that an event has read in use. -/
def readCredential (event : Event IdentityOp IdentityStore) : Option MfaCredential :=
  match event.op with
  | .findTotp userId status =>
    if status = .revoked then none else event.before.findByStatus userId status
  | _ => none

/-- A caller has read a credential in use. -/
def ReadInUse (w : MfaWorld) (i : Nat) (id : String) : Prop :=
  ∃ event ∈ w.own i, ∃ read ∈ readCredential event, read.id = id

/-- A save that makes a credential active, which its caller has read in use, does not find it
    revoked. -/
def Unrevoked (i : Nat) (op : IdentityOp) (w : MfaWorld) : Prop :=
  ∀ credential ∈ op.saved, credential.status = .active → ReadInUse w i credential.id →
    (w.state.saveCredential credential).2 = true →
      ∀ row ∈ w.state.mfaCredentials.get credential.id, row.status ≠ .revoked

/-- Runs in which no call makes a credential active that has been revoked since it read it. -/
def unrevoked : Conduct MfaCommand Int IdentityOp IdentityStore where
  start _ _ := True
  ask := Unrevoked
  event _ _ := True

instance (store : IdentityStore) (moves : MfaMoves) : Decidable (FreshDraws store moves) := by
  unfold FreshDraws
  infer_instance

instance (w : MfaWorld) (i : Nat) (id : String) : Decidable (ReadInUse w i id) := by
  unfold ReadInUse
  infer_instance

instance (i : Nat) (op : IdentityOp) (w : MfaWorld) : Decidable (Unrevoked i op w) := by
  unfold Unrevoked
  infer_instance

instance (crypto : Crypto) (sys : MfaSystem) (moves : MfaMoves) :
    Decidable ((mfaMachine crypto).Along unrevoked sys moves) :=
  have : ∀ c w, Decidable (unrevoked.start c w) := fun _ _ => .isTrue trivial
  have : ∀ i op w, Decidable (unrevoked.ask i op w) := fun i op w =>
    inferInstanceAs (Decidable (Unrevoked i op w))
  have : ∀ e w, Decidable (unrevoked.event e w) := fun _ _ => .isTrue trivial
  Machine.Along.decidable (mfaMachine crypto) unrevoked sys moves

/-! ## What the handlers save -/

/-- An operation saves a new credential under an id. -/
def IdentityOp.Enrolls (op : IdentityOp) (id : String) : Prop :=
  ∃ credential ∈ op.saved, credential.status = .pending ∧ credential.id = id

def IdentityOp.replacesCodes : IdentityOp → Bool
  | .replaceCodes _ _ => true
  | _ => false

abbrev MfaHistory := Proc.History IdentityOp IdentityOp.Answer

/-- The credential in use that an operation has been answered with. -/
def foundInUse : (op : IdentityOp) × op.Answer → Option MfaCredential
  | ⟨.findTotp _ status, found⟩ => if status = .revoked then none else found
  | _ => none

/-- What a command asks for, by what it has asked for before. -/
structure MfaAsks (command : MfaCommand) (past : MfaHistory) (op : IdentityOp) : Prop where
  /-- nothing comes after a new credential -/
  last : ∀ asked ∈ past, ∀ id, ¬ asked.1.Enrolls id
  drawn : ∀ id, op.Enrolls id → command.newId = some id
  read : ∀ credential ∈ op.saved, credential.status ≠ .pending →
    ∃ asked ∈ past, ∃ found ∈ foundInUse asked, found.id = credential.id

/-- No new credential so far, and these ids have been read. -/
structure HasFound (ids : List String) (past : MfaHistory) : Prop where
  none : ∀ asked ∈ past, ∀ id, ¬ asked.1.Enrolls id
  ids : ∀ id ∈ ids, ∃ asked ∈ past, ∃ found ∈ foundInUse asked, found.id = id

/-- An operation that saves nothing, or one of these credentials. -/
def Resaves (ids : List String) (op : IdentityOp) : Prop :=
  ∀ credential ∈ op.saved, credential.status ≠ .pending ∧ credential.id ∈ ids

theorem resaves_of_unsaved {ids : List String} {op : IdentityOp} (h : op.saved = none) :
    Resaves ids op := by
  rw [Resaves, h]
  nofun

theorem Resaves.not_enrolls {ids : List String} {op : IdentityOp} (h : Resaves ids op)
    (id : String) : ¬ op.Enrolls id :=
  fun ⟨credential, hsaved, hpending, _⟩ => (h credential hsaved).1 hpending

section Known

variable {command : MfaCommand} {ids : List String} {past : MfaHistory} {op : IdentityOp}

theorem hasFound_nil : HasFound [] [] := ⟨List.forall_mem_nil _, List.forall_mem_nil _⟩

theorem HasFound.asks (h : HasFound ids past) (hop : Resaves ids op) : MfaAsks command past op where
  last := h.none
  drawn id henrolls := absurd henrolls (hop.not_enrolls id)
  read credential hsaved _ := h.ids credential.id (hop credential hsaved).2

theorem HasFound.cons (h : HasFound ids past) (hop : Resaves ids op) (answer : op.Answer) :
    HasFound ids (⟨op, answer⟩ :: past) where
  none := List.forall_mem_cons.mpr ⟨hop.not_enrolls, h.none⟩
  ids id hid := by
    obtain ⟨asked, hasked, hfound⟩ := h.ids id hid
    exact ⟨asked, List.mem_cons_of_mem _ hasked, hfound⟩

/-- After looking for a credential in use, what is found is known. -/
theorem HasFound.find (h : HasFound ids past) {userId : UserId} {status : MfaStatus}
    (hstatus : status ≠ .revoked) {found : MfaCredential} :
    HasFound (found.id :: ids) (⟨.findTotp userId status, some found⟩ :: past) where
  none := List.forall_mem_cons.mpr ⟨(resaves_of_unsaved rfl : Resaves [] _).not_enrolls, h.none⟩
  ids := by
    refine List.forall_mem_cons.mpr ⟨⟨_, List.mem_cons_self .., found, ?_, rfl⟩, fun id hid => ?_⟩
    · exact if_neg hstatus
    · obtain ⟨asked, hasked, hfound⟩ := h.ids id hid
      exact ⟨asked, List.mem_cons_of_mem _ hasked, hfound⟩

theorem asks_resaves_bind {α β : Type} {p : IdentityProc α} {f : α → IdentityProc β}
    (hp : p.Asks (Resaves ids)) (hpast : HasFound ids past)
    (hf : ∀ a past, HasFound ids past → (f a).AsksAfter (MfaAsks command) past) :
    (p >>= f).AsksAfter (MfaAsks command) past :=
  Proc.asksAfter_bind (fun _ _ hpast hop => hpast.asks hop)
    (fun _ _ answer hpast hop => hpast.cons hop answer) hf hp hpast

theorem asks_resaves {α : Type} {p : IdentityProc α} (hp : p.Asks (Resaves ids))
    (hpast : HasFound ids past) : p.AsksAfter (MfaAsks command) past := by
  rw [← p.bind_done]
  exact asks_resaves_bind hp hpast fun _ _ _ => trivial

end Known

section Programs

variable {Q : IdentityOp → Prop} {crypto : Crypto} {userId : UserId}

theorem asks_ofExcept {α : Type} (result : Except String α) :
    (IdentityProc.ofExcept result).Asks Q := by
  cases result <;> trivial

theorem asks_save {credential : MfaCredential} (h : Q (.saveCredential credential)) :
    (MfaCredentials.save credential).Asks Q := by
  refine ⟨h, fun saved => ?_⟩
  cases (saved : Bool) <;> trivial

theorem asks_issueCodes (draws : List (String × List UInt8)) :
    (RecoveryCodeIssuer.issue crypto userId draws).Asks fun op => op.saved = none := by
  refine ⟨rfl, fun now => ⟨rfl, fun found => ⟨rfl, fun replaced => ?_⟩⟩⟩
  cases (replaced : Bool) <;> trivial

variable (hplain : ∀ op : IdentityOp, op.saved = none → op.replacesCodes = false → Q op)

include hplain

theorem asks_decrypt (ciphertext : String) : (IdentityProc.decrypt ciphertext).Asks Q := by
  refine ⟨hplain _ rfl rfl, fun secret => ?_⟩
  cases (secret : Option (List UInt8)) <;> trivial

theorem asks_redeem (code : String) :
    (RedeemRecoveryCodeHandler.execute crypto userId code).Asks Q := by
  refine ⟨hplain _ rfl rfl, fun found => ?_⟩
  cases (found : Option RecoveryCode) with
  | none => trivial
  | some row =>
    show Proc.Asks _ (if _ then _ else _)
    split_ifs
    · trivial
    · refine ⟨hplain _ rfl rfl, fun now => ?_⟩
      show Proc.Asks _ (IdentityProc.ofExcept (row.consume now) >>= _)
      refine Proc.asks_bind (fun consumed => ?_) (asks_ofExcept _)
      exact ⟨hplain _ rfl rfl, fun _ => trivial⟩

/-- The rest of `verify` saves the credential it has found. -/
theorem asks_verifyFound {value : String} {credential : MfaCredential}
    (hsave : ∀ used : MfaCredential, used.id = credential.id → used.status = .active →
      Q (.saveCredential used)) :
    (do
      let secret ← IdentityProc.decrypt credential.secretCiphertext
      let now ← IdentityProc.now
      let verification ← IdentityProc.ofExcept (Rfc6238Totp.verify crypto.hmacSha1 secret value now
        driftWindow credential.lastUsedStep)
      if !verification.valid then return false
      else do
        let used ← IdentityProc.ofExcept (credential.registerUse verification.step)
        MfaCredentials.save used
        return true : IdentityProc Bool).Asks Q := by
  refine Proc.asks_bind (fun secret => ?_) (asks_decrypt hplain _)
  refine ⟨hplain _ rfl rfl, fun now => ?_⟩
  show Proc.Asks _ (IdentityProc.ofExcept _ >>= _)
  refine Proc.asks_bind (fun verification => ?_) (asks_ofExcept _)
  by_cases hvalid : (!verification.valid) = true
  · rw [if_pos hvalid]
    trivial
  rw [if_neg hvalid]
  cases hused : credential.registerUse verification.step with
  | error message => trivial
  | ok used =>
    obtain ⟨hactive, -, rfl⟩ := MfaCredential.registerUse_ok hused
    show Proc.Asks _ (MfaCredentials.save _ >>= _)
    exact Proc.asks_bind (fun _ => by trivial) (asks_save (hsave _ rfl hactive))

end Programs

section Programs

variable {crypto : Crypto} {ids : List String}

/-- `takeOver` saves the pending credential it is given. -/
theorem asks_takeOver {input : ActivateMfaInput} {draws : List (String × List UInt8)}
    {pending : MfaCredential} {now step : Int} (hpending : pending.id ∈ ids) :
    (ActivateMfaHandler.takeOver crypto input draws pending now step).Asks (Resaves ids) := by
  unfold ActivateMfaHandler.takeOver
  cases hactivated : pending.activate now with
  | error message => trivial
  | ok activated =>
  show Proc.Asks _ (IdentityProc.ofExcept (activated.registerUse step) >>= _)
  cases hused : activated.registerUse step with
  | error message => trivial
  | ok used =>
  obtain ⟨-, rfl⟩ := MfaCredential.activate_ok hactivated
  obtain ⟨hactive, -, rfl⟩ := MfaCredential.registerUse_ok hused
  show Proc.Asks _ (MfaCredentials.save _ >>= _)
  refine Proc.asks_bind (fun _ => ?_) (asks_save ?_)
  · show Proc.Asks _ (RecoveryCodeIssuer.issue crypto input.userId draws >>= _)
    refine Proc.asks_bind (fun codes => ?_)
      ((asks_issueCodes draws).mono fun _ => resaves_of_unsaved)
    exact ⟨resaves_of_unsaved rfl, fun _ => trivial⟩
  · intro credential hsaved
    obtain rfl := Option.some.inj hsaved
    exact ⟨by rw [hactive]; nofun, hpending⟩

theorem asks_revoke {credential : MfaCredential} {now : Int} (h : credential.id ∈ ids) :
    (MfaCredentials.save (credential.revoke now)).Asks (Resaves ids) := by
  refine asks_save fun saved hsaved => ?_
  obtain rfl := Option.some.inj hsaved
  rw [MfaCredential.revoke_status, MfaCredential.revoke_id]
  exact ⟨nofun, h⟩

theorem asks_verify (userId : UserId) (proof : SecondFactorProof) :
    (IdentitySecondFactor.verify crypto userId proof).AsksAfter (MfaAsks (.verify userId proof))
      [] := by
  cases proof with
  | recovery value =>
    exact asks_resaves (asks_redeem (fun _ hsaved _ => resaves_of_unsaved hsaved)
      value) hasFound_nil
  | totp value =>
    refine ⟨hasFound_nil.asks (resaves_of_unsaved rfl), fun found => ?_⟩
    cases (found : Option MfaCredential) with
    | none => trivial
    | some credential =>
      refine asks_resaves (asks_verifyFound (fun _ hsaved _ => resaves_of_unsaved hsaved) ?_)
        (hasFound_nil.find (by decide))
      intro used hid hactive saved hsaved
      obtain rfl := Option.some.inj hsaved
      exact ⟨by rw [hactive]; nofun, by rw [hid]; exact List.mem_cons_self ..⟩

theorem asks_enroll (issuer : String) (userId : UserId) (newId : String) (newSecret : List UInt8) :
    (EnrollMfaHandler.execute issuer userId newId newSecret).AsksAfter
      (MfaAsks (.enroll issuer userId newId newSecret)) [] := by
  -- the new credential is saved at the end
  have hnew : ∀ (user : User) (now : Int) (ids : List String) (past : MfaHistory),
      HasFound ids past → Proc.AsksAfter (MfaAsks (.enroll issuer userId newId newSecret)) past (do
        let secretCiphertext : String ← Proc.ask (IdentityOp.encrypt newSecret)
        MfaCredentials.save (MfaCredential.enroll newId userId secretCiphertext now)
        return Except.ok ⟨issuer, user.email, newSecret⟩ :
          IdentityProc (Except EnrollMfaError EnrollMfaResult)) := by
    intro user now ids past hpast
    refine ⟨hpast.asks (resaves_of_unsaved rfl), fun ciphertext => ⟨⟨?_, ?_, ?_⟩, fun saved => ?_⟩⟩
    · exact (hpast.cons (resaves_of_unsaved rfl) ciphertext).none
    · rintro id ⟨credential, hsaved, -, rfl⟩
      obtain rfl := Option.some.inj hsaved
      rfl
    · intro credential hsaved hstatus
      obtain rfl := Option.some.inj hsaved
      exact absurd rfl hstatus
    · cases (saved : Bool) <;> trivial
  refine ⟨hasFound_nil.asks (resaves_of_unsaved rfl), fun found => ?_⟩
  have hpast : HasFound [] [⟨.findUser userId, found⟩] :=
    hasFound_nil.cons (resaves_of_unsaved rfl) found
  cases (found : Option User) with
  | none => trivial
  | some user =>
    refine ⟨hpast.asks (resaves_of_unsaved rfl), fun now => ?_⟩
    have hpast' : HasFound [] [⟨.now, now⟩, ⟨.findUser userId, some user⟩] :=
      hpast.cons (resaves_of_unsaved rfl) now
    refine ⟨hpast'.asks (resaves_of_unsaved rfl), fun found => ?_⟩
    cases (found : Option MfaCredential) with
    | none =>
      have hnone : HasFound [] [⟨.findTotp userId .pending, none⟩, ⟨.now, now⟩,
          ⟨.findUser userId, some user⟩] :=
        hpast'.cons (resaves_of_unsaved rfl) _
      exact hnew user now [] _ hnone
    | some superseded =>
      show Proc.AsksAfter _ _ (MfaCredentials.save (superseded.revoke now) >>= _)
      refine asks_resaves_bind (asks_revoke (List.mem_cons_self ..)) (hpast'.find (by decide)) ?_
      exact fun _ past hpast => hnew user now _ past hpast

theorem asks_activate (input : ActivateMfaInput) (draws : List (String × List UInt8)) :
    (ActivateMfaHandler.execute crypto input draws).AsksAfter (MfaAsks (.activate input draws))
      [] := by
  refine ⟨hasFound_nil.asks (resaves_of_unsaved rfl), fun found => ?_⟩
  cases (found : Option MfaCredential) with
  | none => trivial
  | some pending =>
  have hpast : HasFound [pending.id] [⟨.findTotp input.userId .pending, some pending⟩] :=
    hasFound_nil.find (by decide)
  show Proc.AsksAfter _ _ (IdentityProc.now >>= _)
  refine asks_resaves_bind (Proc.asks_ask (resaves_of_unsaved rfl)) hpast fun now _ hpast => ?_
  refine asks_resaves_bind (asks_decrypt (fun _ hsaved _ => resaves_of_unsaved hsaved) _) hpast
    fun secret _ hpast => ?_
  refine asks_resaves_bind (asks_ofExcept _) hpast fun verification past hpast => ?_
  by_cases hvalid : (!verification.valid) = true
  · rw [if_pos hvalid]
    trivial
  rw [if_neg hvalid]
  refine ⟨hpast.asks (resaves_of_unsaved rfl), fun found => ?_⟩
  cases (found : Option MfaCredential) with
  | none =>
    exact asks_resaves (asks_takeOver (List.mem_cons_self ..))
      (hpast.cons (resaves_of_unsaved rfl) _)
  | some active =>
    show Proc.AsksAfter _ _ (if _ then _ else _)
    split_ifs
    · trivial
    · refine asks_resaves (Proc.asks_bind (fun _ => asks_takeOver ?_)
        (asks_revoke (List.mem_cons_self ..))) (hpast.find (by decide))
      exact List.mem_cons_of_mem _ (List.mem_cons_self ..)

theorem asks_disable (userId : UserId) :
    (DisableMfaHandler.execute userId).AsksAfter (MfaAsks (.disable userId)) [] := by
  refine ⟨hasFound_nil.asks (resaves_of_unsaved rfl), fun found => ?_⟩
  cases (found : Option MfaCredential) with
  | none => trivial
  | some active =>
    refine asks_resaves ⟨resaves_of_unsaved rfl, fun now => ?_⟩ (hasFound_nil.find (by decide))
    show Proc.Asks _ (MfaCredentials.save (active.revoke now) >>= _)
    refine Proc.asks_bind (fun _ => ?_) (asks_revoke (List.mem_cons_self ..))
    exact ⟨resaves_of_unsaved rfl, fun _ => trivial⟩

/-- A new credential is the last thing a call saves, under the id it has drawn; everything else that
    it saves it has read in use. -/
theorem asks_mfa (command : MfaCommand) :
    ((mfaMachine crypto).program command).AsksAfter (MfaAsks command) [] := by
  cases command with
  | verify userId proof => exact (asks_verify userId proof).map _
  | enroll issuer userId newId newSecret => exact (asks_enroll issuer userId newId newSecret).map _
  | activate input draws => exact (asks_activate input draws).map _
  | disable userId => exact (asks_disable userId).map _

end Programs

/-! ## What is stored -/

namespace IdentityStore

/-- No operation removes a credential. -/
theorem exec_stays (crypto : Crypto) (store : IdentityStore) (op : IdentityOp) {id : String}
    (h : store.mfaCredentials.get id ≠ none) :
    (store.exec crypto op).1.mfaCredentials.get id ≠ none := by
  cases hop : op.saved with
  | none => rwa [exec_mfaCredentials hop]
  | some credential =>
    obtain rfl := IdentityOp.eq_of_saved hop
    show (store.saveCredential credential).1.mfaCredentials.get id ≠ none
    rcases store.saveCredential_cases credential with hsame | ⟨-, hget⟩
    · rwa [hsame]
    · rw [hget]
      split_ifs
      · exact Option.some_ne_none _
      · exact h

end IdentityStore

/-- A stored credential was there from the start or has been enrolled, and nothing goes away. -/
structure Sourced (store : IdentityStore) (w : MfaWorld) : Prop where
  source : ∀ id, w.state.mfaCredentials.get id ≠ none →
    store.mfaCredentials.get id ≠ none ∨ ∃ event ∈ w.log, event.op.Enrolls id
  stays : ∀ event ∈ w.log, ∀ id, event.before.mfaCredentials.get id ≠ none →
    w.state.mfaCredentials.get id ≠ none

/-- What a caller saves is new, or it has read it in use. -/
def ResavesRead (i : Nat) (op : IdentityOp) (w : MfaWorld) : Prop :=
  ∀ credential ∈ op.saved, credential.status ≠ .pending → ReadInUse w i credential.id

section Runs

variable {crypto : Crypto} {store : IdentityStore} {moves : MfaMoves} {i : Nat} {op : IdentityOp}
  {w : MfaWorld} {id : String}

/-- What has been read is stored. -/
theorem Sourced.of_read (h : Sourced store w) (hread : ReadInUse w i id) :
    w.state.mfaCredentials.get id ≠ none := by
  obtain ⟨event, hevent, read, hread, rfl⟩ := hread
  refine h.stays event (List.mem_filter.mp hevent).1 read.id ?_
  unfold readCredential at hread
  split at hread
  · split_ifs at hread
    · cases hread
    · rw [(IdentityStore.findByStatus_some hread).1]
      exact Option.some_ne_none _
  · cases hread

/-- The step lemma. -/
theorem Sourced.act (h : Sourced store w) (hask : ResavesRead i op w) :
    Sourced store ((mfaMachine crypto).act i op w) where
  source id hid := by
    by_cases hstored : w.state.mfaCredentials.get id ≠ none
    · rcases h.source id hstored with hfirst | ⟨event, hevent, henrolls⟩
      · exact Or.inl hfirst
      · exact Or.inr ⟨event, List.mem_cons_of_mem _ hevent, henrolls⟩
    · -- the operation has stored it
      have hnone : w.state.mfaCredentials.get id = none := not_not.mp hstored
      refine Or.inr ⟨_, List.mem_cons_self .., ?_⟩
      cases hop : op.saved with
      | none =>
        have hsame : (w.state.exec crypto op).1.mfaCredentials = w.state.mfaCredentials :=
          IdentityStore.exec_mfaCredentials hop
        refine absurd hnone ?_
        rwa [← hsame]
      | some credential =>
        obtain rfl := IdentityOp.eq_of_saved hop
        have hid' : (w.state.saveCredential credential).1.mfaCredentials.get id ≠ none := hid
        rcases w.state.saveCredential_cases credential with hsame | ⟨-, hget⟩
        · rw [hsame] at hid'
          exact absurd hnone hid'
        · rw [hget] at hid'
          split_ifs at hid' with hcase
          · refine ⟨credential, rfl, ?_, hcase.symm⟩
            by_contra hstatus
            exact h.of_read (hask credential rfl hstatus) (hcase ▸ hnone)
          · exact absurd hnone hid'
  stays event hevent id hid := by
    rcases List.mem_cons.mp hevent with rfl | hevent
    · exact w.state.exec_stays crypto op hid
    · exact w.state.exec_stays crypto op (h.stays event hevent id hid)

/-- What a call has found is what it has read. -/
theorem readInUse_of_history (h : ∃ asked ∈ (mfaMachine crypto).history w i,
    ∃ found ∈ foundInUse asked, found.id = id) : ReadInUse w i id := by
  obtain ⟨asked, hasked, found, hfound, rfl⟩ := h
  obtain ⟨⟨caller, op, before⟩, hevent, rfl⟩ := List.mem_map.mp hasked
  refine ⟨_, hevent, found, ?_, rfl⟩
  cases op with
  | findTotp userId status => exact hfound
  | _ => cases hfound

theorem resavesRead_of_pending (hpending : (mfaRun crypto store moves).pending i = some op) :
    ResavesRead i op (mfaRun crypto store moves).world := by
  obtain ⟨call, -, hasks⟩ := Machine.pending_of_asksAfter asks_mfa hpending
  exact fun credential hsaved hstatus =>
    readInUse_of_history (hasks.read credential hsaved hstatus)

theorem sourced_run : Sourced store (mfaRun crypto store moves).world := by
  have hok : (mfaMachine crypto).Along ⟨fun _ _ => True, ResavesRead, fun _ _ => True⟩
      ⟨⟨store, []⟩, []⟩ moves := by
    rw [Machine.along_iff]
    intro before move after _
    cases move with
    | start command => trivial
    | event nowMs => trivial
    | run i => exact fun op hpending => resavesRead_of_pending hpending
  refine Machine.run_keeps (R := fun w w' => Sourced store w → Sourced store w') (fun _ => id)
    (fun huv hvw hu => hvw (huv hu)) (fun _ _ _ hask hw => hw.act hask)
    (fun _ _ _ hw => ⟨hw.source, hw.stays⟩) hok ⟨fun _ h => Or.inl h, nofun⟩

/-! ## New credentials -/

/-- Two elements of a list that one value comes from are one element, when no value comes twice. -/
theorem eq_of_nodup_filterMap {α β : Type} {f : α → Option β} {l : List α}
    (h : (l.filterMap f).Nodup) {i j : Nat} {a b : α} {value : β} (hi : l[i]? = some a)
    (hj : l[j]? = some b) (ha : f a = some value) (hb : f b = some value) : i = j := by
  have hpairs := List.pairwise_iff_getElem.mp (List.pairwise_filterMap.mp h)
  obtain ⟨hlti, rfl⟩ := List.getElem?_eq_some_iff.mp hi
  obtain ⟨hltj, rfl⟩ := List.getElem?_eq_some_iff.mp hj
  rcases lt_trichotomy i j with hlt | heq | hgt
  · exact absurd rfl (hpairs i j hlti hltj hlt value ha value hb)
  · exact heq
  · exact absurd rfl (hpairs j i hltj hlti hgt value hb value ha)

theorem FreshDraws.before {after : MfaMoves} (h : FreshDraws store (moves ++ after)) :
    FreshDraws store moves := by
  unfold FreshDraws at h ⊢
  rw [Machine.commands_append, List.filterMap_append] at h
  exact ⟨h.1.of_append_left, fun id hid => h.2 id (List.mem_append_left _ hid)⟩

theorem command_of_call {call : Call MfaCommand IdentityOp IdentityOp.Answer
    IdentityStore MfaResult}
    (hcall : (mfaRun crypto store moves).calls[i]? = some call) :
    (Machine.commands moves)[i]? = some call.command := by
  have hcommands := (mfaMachine crypto).commands_run ⟨⟨store, []⟩, []⟩ moves
  rw [List.map_nil, List.nil_append] at hcommands
  rw [← hcommands, List.getElem?_map]
  exact congrArg (Option.map _) hcall

/-- Where the drawn ids are new, a new credential meets no row. -/
theorem enrolled_fresh (hdraws : FreshDraws store moves)
    (hpending : (mfaRun crypto store moves).pending i = some op) (henrolls : op.Enrolls id) :
    (mfaRun crypto store moves).world.state.mfaCredentials.get id = none := by
  obtain ⟨call, hcall, hasks⟩ := Machine.pending_of_asksAfter asks_mfa hpending
  have hcommand := command_of_call hcall
  have hnew := hasks.drawn id henrolls
  by_contra hstored
  rcases sourced_run.source id hstored with hfirst | ⟨event, hevent, henrolls'⟩
  · exact hfirst (hdraws.2 id (List.mem_filterMap.mpr ⟨_, List.mem_of_getElem? hcommand, hnew⟩))
  · -- another call cannot have drawn the id, and this one asks for nothing after it
    have hprogram : ∀ command, ((mfaMachine crypto).program command).Asks fun op =>
        ∀ id, op.Enrolls id → command.newId = some id :=
      fun command => (asks_mfa command).asks fun _ _ hasks => hasks.drawn
    obtain ⟨call', hcall', hnew'⟩ := Machine.caller_of_asks hprogram hevent
    obtain rfl : event.caller = i := eq_of_nodup_filterMap hdraws.1
      (command_of_call hcall') hcommand
      (hnew' id henrolls') hnew
    exact hasks.last _ (Machine.mem_history (List.mem_filter.mpr ⟨hevent, by simp⟩)) id henrolls'

/-- A new credential is saved under a new id. -/
def FreshId (store : IdentityStore) (op : IdentityOp) : Prop :=
  ∀ credential ∈ op.saved, credential.status = .pending →
    store.mfaCredentials.get credential.id = none

/-- Runs whose operations meet a condition on the state before them. -/
def asking (condition : IdentityStore → IdentityOp → Prop) :
    Conduct MfaCommand Int IdentityOp IdentityStore :=
  { (Conduct.free : Conduct MfaCommand Int IdentityOp IdentityStore) with
    ask := fun _ op w => condition w.state op }

theorem along_freshId (hdraws : FreshDraws store moves) :
    (mfaMachine crypto).Along (asking FreshId) ⟨⟨store, []⟩, []⟩ moves := by
  rw [Machine.along_iff]
  rintro before move after rfl
  cases move with
  | start command => trivial
  | event nowMs => trivial
  | run i =>
    exact fun op hpending credential hsaved hstatus =>
      enrolled_fresh hdraws.before hpending ⟨credential, hsaved, hstatus, rfl⟩

end Runs

/-! ## The lifecycle -/

namespace Forward

theorem refl (store : IdentityStore) : Forward store store :=
  fun _ row hrow => ⟨row, hrow, le_rfl⟩

theorem trans {a b c : IdentityStore} (hab : Forward a b) (hbc : Forward b c) : Forward a c := by
  intro id row hrow
  obtain ⟨row', hrow', hle⟩ := hab id row hrow
  obtain ⟨row'', hrow'', hle'⟩ := hbc id row' hrow'
  exact ⟨row'', hrow'', hle.trans hle'⟩

/-- A save keeps every other credential; its own moves forward if the saved status is not earlier
    than the stored one. -/
theorem saveCredential {store : IdentityStore} {credential : MfaCredential}
    (h : (store.saveCredential credential).2 = true →
      ∀ row ∈ store.mfaCredentials.get credential.id,
        row.status.rank ≤ credential.status.rank) :
    Forward store (store.saveCredential credential).1 := by
  rcases store.saveCredential_cases credential with hsame | ⟨hsaved, hget⟩
  · rw [hsame]
    exact refl store
  · intro id row hrow
    rw [hget]
    by_cases hid : id = credential.id
    · subst hid
      rw [if_pos rfl]
      refine ⟨_, rfl, ?_⟩
      rw [IdentityStore.savedRow_status]
      exact h hsaved row hrow
    · rw [if_neg hid]
      exact ⟨row, hrow, le_rfl⟩

/-- An operation that a handler asks for. -/
theorem act {crypto : Crypto} {i : Nat} {op : IdentityOp} {w : MfaWorld}
    (hfresh : FreshId w.state op) (hread : ResavesRead i op w) (hunrevoked : Unrevoked i op w) :
    Forward w.state ((mfaMachine crypto).act i op w).state := by
  cases hop : op.saved with
  | none =>
    intro id row hrow
    refine ⟨row, ?_, le_rfl⟩
    show row ∈ (w.state.exec crypto op).1.mfaCredentials.get id
    rw [IdentityStore.exec_mfaCredentials hop]
    exact hrow
  | some credential =>
    obtain rfl := IdentityOp.eq_of_saved hop
    apply saveCredential
    intro hsaved row hrow
    cases hstatus : credential.status with
    | pending =>
      have hnone := hfresh credential rfl hstatus
      rw [hnone] at hrow
      cases hrow
    | active =>
      have hinUse := hread credential rfl (by rw [hstatus]; nofun)
      have hrevoked := hunrevoked credential rfl hstatus hinUse hsaved row hrow
      cases hrow' : row.status with
      | pending => exact Nat.zero_le _
      | active => exact le_rfl
      | revoked => exact absurd hrow' hrevoked
    | revoked => cases row.status <;> decide

end Forward

/-- The saves of these runs: under a new id, or of what has been read and is not revoked since. -/
def movingForward : Conduct MfaCommand Int IdentityOp IdentityStore where
  start _ _ := True
  ask i op w := FreshId w.state op ∧ ResavesRead i op w ∧ Unrevoked i op w
  event _ _ := True

/-- In a run that draws new ids, credentials only move forward exactly when no call makes a
    credential active again that has been revoked since the call has read it. -/
theorem lifecycle_forward (crypto : Crypto) (store : IdentityStore) (moves : MfaMoves)
    (hdraws : FreshDraws store moves) :
    LifecycleForward crypto store moves ↔
      (mfaMachine crypto).Along unrevoked ⟨⟨store, []⟩, []⟩ moves := by
  constructor
  · intro hforward
    rw [Machine.along_iff]
    rintro before move after rfl
    cases move with
    | start command => trivial
    | event nowMs => trivial
    | run i =>
      intro op hpending credential hop hactive _ hsaved row hrow hrevoked
      obtain rfl := IdentityOp.eq_of_saved hop
      -- a save that makes a revoked credential active is a step back
      have hstep := hforward before [.run i] after (by simp)
      rw [mfaRun, mfaRun, Machine.run_append, Machine.run_cons, Machine.run_nil,
        Machine.world_run_pending hpending] at hstep
      obtain ⟨row', hrow', hle⟩ := hstep credential.id row hrow
      rcases IdentityStore.saveCredential_cases _ credential with hsame | ⟨_, hget⟩
      · rw [hsame] at hsaved
        cases hsaved
      · have hget' := hget credential.id
        rw [if_pos rfl] at hget'
        obtain rfl := Option.some.inj (hget'.symm.trans hrow')
        rw [IdentityStore.savedRow_status, hactive, hrevoked] at hle
        exact absurd hle (by decide)
  · intro hunrevoked before middle after hsplit
    -- every save of the run is of a new credential, or of one that its caller has read
    have hok : (mfaMachine crypto).Along movingForward ⟨⟨store, []⟩, []⟩ moves := by
      rw [Machine.along_iff]
      rintro before move after rfl
      cases move with
      | start command => trivial
      | event nowMs => trivial
      | run i =>
        intro op hpending
        exact ⟨Machine.along_iff.mp (along_freshId hdraws) before (.run i) after rfl op hpending,
          resavesRead_of_pending hpending,
          Machine.along_iff.mp hunrevoked before (.run i) after rfl op hpending⟩
    rw [hsplit, List.append_assoc] at hok
    have hmiddle := (Machine.along_append.mp (Machine.along_append.mp hok).2).1
    rw [mfaRun, mfaRun, Machine.run_append]
    have hkeeps : ∀ i op w, movingForward.ask i op w →
        Forward w.state ((mfaMachine crypto).act i op w).state := by
      intro i op w hask
      obtain ⟨hfresh, hread, hunrevoked⟩ := hask
      exact Forward.act hfresh hread hunrevoked
    exact Machine.run_keeps (R := fun w w' => Forward w.state w'.state) (fun _ => Forward.refl _)
      Forward.trans hkeeps (fun _ _ _ => Forward.refl _) hmiddle

/-! ### Runs -/

/-- Ann presents a code, disables her second factor, enrolls and activates another one, which her
    last request uses. -/
def annReplacesFactor : MfaMoves :=
  List.flatten
    [Move.alone 0 4 (.verify ⟨"ann"⟩ (.totp "000000")),
      Move.alone 1 4 (.disable ⟨"ann"⟩),
      Move.alone 2 5 (.enroll "accesscore" ⟨"ann"⟩ "c2" []),
      Move.alone 3 9 (.activate ⟨⟨"ann"⟩, "000000", false⟩ [("r1", [])]),
      [.event 930000],
      Move.alone 4 4 (.verify ⟨"ann"⟩ (.totp "000000"))]

/-- A verification reads the credential, `disable` revokes it, and the verification writes its
    active copy back. -/
def disabledDuringVerify : MfaMoves :=
  [.start (.verify ⟨"ann"⟩ (.totp "000000")), .run 0, .start (.disable ⟨"ann"⟩), .run 1, .run 1,
    .run 1, .run 1, .run 0, .run 0, .run 0]

theorem lifecycle_forward_annReplacesFactor :
    LifecycleForward constantCrypto annStore annReplacesFactor := by
  refine (lifecycle_forward constantCrypto annStore annReplacesFactor ?_).mpr ?_
  · decide +kernel
  · decide +kernel

/-- The revoked credential becomes active again. -/
theorem lifecycle_back : FreshDraws annStore disabledDuringVerify ∧
    ¬ LifecycleForward constantCrypto annStore disabledDuringVerify := by
  refine ⟨by decide +kernel, fun hforward => ?_⟩
  have hback := hforward (disabledDuringVerify.take 9) (disabledDuringVerify.drop 9) [] rfl
  have hstep : ¬ ∀ row ∈ (mfaRun constantCrypto annStore
      (disabledDuringVerify.take 9)).world.state.mfaCredentials.get "c1",
      ∃ row' ∈ (mfaRun constantCrypto annStore (disabledDuringVerify.take 9 ++
        disabledDuringVerify.drop 9)).world.state.mfaCredentials.get "c1",
        row.status.rank ≤ row'.status.rank := by decide +kernel
  exact hstep (hback "c1")

end AccessCore
