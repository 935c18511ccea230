/-
  The second-factor requests (`identity/application/enroll-mfa.ts`, `activate-mfa.ts`,
  `disable-mfa.ts`, `redeem-recovery-code.ts`, `recovery-code-issuer.ts`,
  `regenerate-recovery-codes.ts`,
  `authn/infrastructure/credentials/identity-second-factor.ts`) and the tables they share
  (`drizzle-mfa-credentials.repository.ts`, `drizzle-recovery-codes.repository.ts`).

  A handler loads a credential, changes its copy, and writes the whole row back.  Each of its
  statements is one operation of its program, so other requests may run between any two.

  The random values a handler draws are arguments of its program.
-/
import AccessCore.Lib.Interleave
import AccessCore.Lib.Table
import AccessCore.Identity.Mfa

namespace AccessCore

open Interleave

/-! ## Tables -/

inductive UserStatus where
  | pendingVerification
  | active
  | suspended
deriving DecidableEq, Repr

/-- `UserProps`. -/
structure User where
  id : UserId
  email : String
  passwordHash : String
  status : UserStatus
  emailVerifiedAt : Option Int
  createdAt : Int
  updatedAt : Int
deriving DecidableEq, Repr

inductive AuditValue where
  | text (value : String)
  | number (value : Int)
deriving DecidableEq, Repr

structure AuditEvent where
  type : String
  orgId : Option String
  subject : Option String
  payload : List (String × AuditValue)
deriving DecidableEq, Repr

structure IdentityStore where
  users : List User
  mfaCredentials : Table MfaCredential String (·.id)
  recoveryCodes : Table RecoveryCode String (·.id)
  auditLog : List AuditEvent
  nowMs : Int

namespace IdentityStore

/-- The first row of a user in a status; the order of the rows is the table's. -/
def findByStatus (store : IdentityStore) (userId : UserId) (status : MfaStatus) :
    Option MfaCredential :=
  (store.mfaCredentials.select fun row => row.userId = userId && row.status = status).head?

/-- On a conflict the identity and the parameters of the credential stay. -/
def mergeCredential (old new : MfaCredential) : MfaCredential :=
  { old with
    status := new.status
    secretCiphertext := new.secretCiphertext
    lastUsedStep := new.lastUsedStep
    activatedAt := new.activatedAt
    revokedAt := new.revokedAt }

theorem mergeCredential_keeps : Table.KeepsKey (·.id) mergeCredential := fun _ _ h => h

/-- The unique index `mfa_active_totp_per_user`: whether `row` may be in a table of `rows`. -/
def admits (rows : List MfaCredential) (row : MfaCredential) : Bool :=
  row.status ≠ .active ||
    rows.all fun other => other.id = row.id || other.userId ≠ row.userId || other.status ≠ .active

/-- The row `save` leaves under the id of a credential. -/
def savedRow (store : IdentityStore) (credential : MfaCredential) : MfaCredential :=
  ((store.mfaCredentials.get credential.id).map (mergeCredential · credential)).getD credential

/-- `DrizzleMfaCredentialsRepository.save`; `false` when the unique index refuses the row. -/
def saveCredential (store : IdentityStore) (credential : MfaCredential) : IdentityStore × Bool :=
  if admits store.mfaCredentials.rows (store.savedRow credential) then
    ({ store with
      mfaCredentials := store.mfaCredentials.upsert mergeCredential
        mergeCredential_keeps credential },
      true)
  else (store, false)

/-- The ids of the unconsumed codes of a user, what the statement `DELETE` of `replaceForUser`
    finds. -/
def unconsumedCodes (store : IdentityStore) (userId : UserId) : List String :=
  (store.recoveryCodes.select fun row => row.userId = userId && row.consumedAt.isNone).map (·.id)

/-- The transaction of `replaceForUser`, from the rows its `DELETE` found; `false` when an id or a
    hash is taken.  A row consumed in the meantime is kept. -/
def replaceCodes (store : IdentityStore) (found : List String) (codes : List RecoveryCode) :
    IdentityStore × Bool :=
  let cleared := store.recoveryCodes.delete fun row =>
    found.contains row.id && row.consumedAt.isNone
  let rows := cleared.rows ++ codes
  if (rows.map (·.id)).Nodup ∧ (rows.map (·.codeHash)).Nodup then
    ({ store with
      recoveryCodes := codes.foldl
        (fun table code => table.upsert (fun _ new => new) (fun _ _ _ => rfl) code) cleared }, true)
  else (store, false)

/-- `DrizzleRecoveryCodesRepository.findByHash`. -/
def findRecoveryCode (store : IdentityStore) (userId : UserId) (codeHash : String) :
    Option RecoveryCode :=
  (store.recoveryCodes.select fun row => row.userId = userId && row.codeHash = codeHash).head?

/-- `DrizzleRecoveryCodesRepository.consume`: whether an unconsumed row was there. -/
def consumeRecoveryCode (store : IdentityStore) (code : RecoveryCode) : IdentityStore × Bool :=
  match store.recoveryCodes.get code.id with
  | some row =>
    if row.consumedAt.isNone then
      ({ store with
        recoveryCodes := store.recoveryCodes.upsert
          (fun old new => { old with consumedAt := new.consumedAt }) (fun _ _ h => h) code }, true)
    else (store, false)
  | none => (store, false)

end IdentityStore

/-! ## Operations -/

inductive IdentityOp where
  | now
  | findUser (userId : UserId)
  | findTotp (userId : UserId) (status : MfaStatus)
  | saveCredential (credential : MfaCredential)
  | encrypt (secret : List UInt8)
  | decrypt (ciphertext : String)
  | unconsumedCodes (userId : UserId)
  | replaceCodes (found : List String) (codes : List RecoveryCode)
  | findRecoveryCode (userId : UserId) (codeHash : String)
  | consumeRecoveryCode (code : RecoveryCode)
  | appendAudit (event : AuditEvent)

def IdentityOp.Answer : IdentityOp → Type
  | now => Int
  | findUser _ => Option User
  | findTotp _ _ => Option MfaCredential
  | saveCredential _ => Bool
  | encrypt _ => String
  | decrypt _ => Option (List UInt8)
  | unconsumedCodes _ => List String
  | replaceCodes _ _ => Bool
  | findRecoveryCode _ _ => Option RecoveryCode
  | consumeRecoveryCode _ => Bool
  | appendAudit _ => Unit

def IdentityStore.exec (crypto : Crypto) :
    (op : IdentityOp) → IdentityStore → IdentityStore × op.Answer
  | .now, store => (store, store.nowMs)
  | .findUser userId, store => (store, store.users.find? (·.id = userId))
  | .findTotp userId status, store => (store, store.findByStatus userId status)
  | .saveCredential credential, store => store.saveCredential credential
  | .encrypt secret, store => (store, crypto.encrypt secret)
  | .decrypt ciphertext, store => (store, crypto.decrypt ciphertext)
  | .unconsumedCodes userId, store => (store, store.unconsumedCodes userId)
  | .replaceCodes found codes, store => store.replaceCodes found codes
  | .findRecoveryCode userId codeHash, store => (store, store.findRecoveryCode userId codeHash)
  | .consumeRecoveryCode code, store => store.consumeRecoveryCode code
  | .appendAudit event, store => ({ store with auditLog := store.auditLog ++ [event] }, ())

abbrev IdentityProc (α : Type) := Proc IdentityOp IdentityOp.Answer α

namespace IdentityProc

/-- A domain object that throws. -/
def ofExcept {α : Type} : Except String α → IdentityProc α
  | .ok a => .done a
  | .error message => .thrown message

def now : IdentityProc Int := .ask IdentityOp.now

def appendAudit (event : AuditEvent) : IdentityProc Unit := .ask (IdentityOp.appendAudit event)

def decrypt (ciphertext : String) : IdentityProc (List UInt8) := do
  let secret : Option (List UInt8) ← .ask (IdentityOp.decrypt ciphertext)
  match secret with
  | some secret => return secret
  | none => .thrown "decryption failed"

end IdentityProc

namespace MfaCredentials

def findActiveTotpByUser (userId : UserId) : IdentityProc (Option MfaCredential) :=
  .ask (IdentityOp.findTotp userId .active)

def findPendingTotpByUser (userId : UserId) : IdentityProc (Option MfaCredential) :=
  .ask (IdentityOp.findTotp userId .pending)

def save (credential : MfaCredential) : IdentityProc Unit := do
  let saved : Bool ← .ask (IdentityOp.saveCredential credential)
  if saved then return ()
  else .thrown "duplicate key value violates unique constraint \"mfa_active_totp_per_user\""

end MfaCredentials

namespace RecoveryCodes

def replaceForUser (userId : UserId) (codes : List RecoveryCode) : IdentityProc Unit := do
  let found : List String ← .ask (IdentityOp.unconsumedCodes userId)
  let replaced : Bool ← .ask (IdentityOp.replaceCodes found codes)
  if replaced then return ()
  else .thrown "duplicate key value violates unique constraint"

def findByHash (userId : UserId) (codeHash : String) : IdentityProc (Option RecoveryCode) :=
  .ask (IdentityOp.findRecoveryCode userId codeHash)

def consume (code : RecoveryCode) : IdentityProc Bool :=
  .ask (IdentityOp.consumeRecoveryCode code)

end RecoveryCodes

/-! ## Recovery codes -/

namespace RecoveryCodeIssuer

def alphabet : List Char := "23456789ABCDEFGHJKLMNPQRSTUVWXYZ".toList

def codeLength : Nat := 10

/-- A code from `codeLength` random bytes. -/
def mintCode (bytes : List UInt8) : String :=
  let body := (List.range codeLength).map fun index =>
    alphabet.getD ((bytes.getD index 0).toNat % alphabet.length) '2'
  String.ofList (body.take 5) ++ "-" ++ String.ofList (body.drop 5)

/-- `issue`; a draw is the random id and bytes of one code. -/
def issue (crypto : Crypto) (userId : UserId) (draws : List (String × List UInt8)) :
    IdentityProc (List String) := do
  let now ← IdentityProc.now
  let codes := draws.map fun (id, bytes) =>
    RecoveryCode.issue id userId (crypto.hash (mintCode bytes)) now
  RecoveryCodes.replaceForUser userId codes
  return draws.map fun (_, bytes) => mintCode bytes

end RecoveryCodeIssuer

/-- `RedeemRecoveryCodeHandler.execute`. -/
def RedeemRecoveryCodeHandler.execute (crypto : Crypto) (userId : UserId) (code : String) :
    IdentityProc Bool := do
  match ← RecoveryCodes.findByHash userId (crypto.hash code) with
  | none => return false
  | some code =>
    if code.isConsumed then return false
    else do
      let now ← IdentityProc.now
      let consumed ← IdentityProc.ofExcept (code.consume now)
      RecoveryCodes.consume consumed

/-! ## The handlers -/

inductive SecondFactorProof where
  | totp (value : String)
  | recovery (value : String)
deriving DecidableEq, Repr

/-- `DRIFT_WINDOW`, of both handlers that verify a code. -/
def driftWindow : Nat := 1

/-- `IdentitySecondFactor.verify`. -/
def IdentitySecondFactor.verify (crypto : Crypto) (userId : UserId) :
    SecondFactorProof → IdentityProc Bool
  | .recovery value => RedeemRecoveryCodeHandler.execute crypto userId value
  | .totp value => do
    match ← MfaCredentials.findActiveTotpByUser userId with
    | none => return false
    | some credential =>
      let secret ← IdentityProc.decrypt credential.secretCiphertext
      let now ← IdentityProc.now
      let verification ← IdentityProc.ofExcept (Rfc6238Totp.verify crypto.hmacSha1 secret value now
        driftWindow credential.lastUsedStep)
      if !verification.valid then return false
      else do
        let used ← IdentityProc.ofExcept (credential.registerUse verification.step)
        MfaCredentials.save used
        return true

inductive EnrollMfaError where
  | userNotFound
deriving DecidableEq, Repr

/-- The parts of the `otpauthUri` of an enrollment. -/
structure EnrollMfaResult where
  issuer : String
  account : String
  secret : List UInt8
deriving DecidableEq, Repr

/-- `EnrollMfaHandler.execute`, with the id and the secret it draws. -/
def EnrollMfaHandler.execute (issuer : String) (userId : UserId) (newId : String)
    (newSecret : List UInt8) : IdentityProc (Except EnrollMfaError EnrollMfaResult) := do
  let user : Option User ← .ask (IdentityOp.findUser userId)
  match user with
  | none => return .error .userNotFound
  | some user =>
    let now ← IdentityProc.now
    match ← MfaCredentials.findPendingTotpByUser userId with
    | some superseded => MfaCredentials.save (superseded.revoke now)
    | none => pure ()
    let secretCiphertext : String ← .ask (IdentityOp.encrypt newSecret)
    MfaCredentials.save (MfaCredential.enroll newId userId secretCiphertext now)
    return .ok ⟨issuer, user.email, newSecret⟩

inductive ActivateMfaError where
  | noPendingCredential
  | invalidCode
  | stepUpRequired
deriving DecidableEq, Repr

structure ActivateMfaInput where
  userId : UserId
  code : String
  steppedUp : Bool

/-- The end of `ActivateMfaHandler.execute`: the pending credential takes over. -/
def ActivateMfaHandler.takeOver (crypto : Crypto) (input : ActivateMfaInput)
    (draws : List (String × List UInt8)) (pending : MfaCredential) (now step : Int) :
    IdentityProc (Except ActivateMfaError (List String)) := do
  let activated ← IdentityProc.ofExcept (pending.activate now)
  let used ← IdentityProc.ofExcept (activated.registerUse step)
  MfaCredentials.save used
  let recoveryCodes ← RecoveryCodeIssuer.issue crypto input.userId draws
  IdentityProc.appendAudit
    ⟨"mfa.activated", none, some input.userId.value, [("credentialId", .text pending.id)]⟩
  return .ok recoveryCodes

/-- `ActivateMfaHandler.execute`, with what the recovery codes draw. -/
def ActivateMfaHandler.execute (crypto : Crypto) (input : ActivateMfaInput)
    (draws : List (String × List UInt8)) :
    IdentityProc (Except ActivateMfaError (List String)) := do
  match ← MfaCredentials.findPendingTotpByUser input.userId with
  | none => return .error .noPendingCredential
  | some pending =>
    let now ← IdentityProc.now
    let secret ← IdentityProc.decrypt pending.secretCiphertext
    let verification ← IdentityProc.ofExcept
      (Rfc6238Totp.verify crypto.hmacSha1 secret input.code now driftWindow none)
    if !verification.valid then return .error .invalidCode
    else
      match ← MfaCredentials.findActiveTotpByUser input.userId with
      | none => ActivateMfaHandler.takeOver crypto input draws pending now verification.step
      | some active =>
        if !input.steppedUp then return .error .stepUpRequired
        else do
          MfaCredentials.save (active.revoke now)
          ActivateMfaHandler.takeOver crypto input draws pending now verification.step

inductive DisableMfaError where
  | notEnabled
deriving DecidableEq, Repr

/-- `DisableMfaHandler.execute`. -/
def DisableMfaHandler.execute (userId : UserId) : IdentityProc (Except DisableMfaError Unit) := do
  match ← MfaCredentials.findActiveTotpByUser userId with
  | none => return .error .notEnabled
  | some active =>
    let now ← IdentityProc.now
    MfaCredentials.save (active.revoke now)
    IdentityProc.appendAudit
      ⟨"mfa.disabled", none, some userId.value, [("credentialId", .text active.id)]⟩
    return .ok ()

inductive RegenerateRecoveryCodesError where
  | notEnabled
deriving DecidableEq, Repr

/-- `RegenerateRecoveryCodesHandler.execute`. -/
def RegenerateRecoveryCodesHandler.execute (crypto : Crypto) (userId : UserId)
    (draws : List (String × List UInt8)) :
    IdentityProc (Except RegenerateRecoveryCodesError (List String)) := do
  match ← MfaCredentials.findActiveTotpByUser userId with
  | none => return .error .notEnabled
  | some _ =>
    let recoveryCodes ← RecoveryCodeIssuer.issue crypto userId draws
    return .ok recoveryCodes

/-! ## What a save leaves -/

namespace IdentityStore

variable {store : IdentityStore}

/-- A save is refused and changes nothing, or leaves its row under its id and nothing else. -/
theorem saveCredential_cases (store : IdentityStore) (credential : MfaCredential) :
    store.saveCredential credential = (store, false) ∨
      (store.saveCredential credential).2 = true ∧
        ∀ id, (store.saveCredential credential).1.mfaCredentials.get id =
          if id = credential.id then some (store.savedRow credential)
          else store.mfaCredentials.get id := by
  unfold saveCredential
  split_ifs with hadmits
  · refine Or.inr ⟨rfl, fun id => ?_⟩
    show (store.mfaCredentials.upsert mergeCredential mergeCredential_keeps credential).get id = _
    rw [Table.get_upsert mergeCredential_keeps]
    by_cases hid : id = credential.id
    · rw [if_pos hid, if_pos hid, hid]
      rfl
    · rw [if_neg hid, if_neg hid]
  · exact Or.inl rfl

@[simp] theorem savedRow_status (credential : MfaCredential) :
    (store.savedRow credential).status = credential.status := by
  unfold savedRow
  cases store.mfaCredentials.get credential.id <;> rfl

@[simp] theorem savedRow_lastUsedStep (credential : MfaCredential) :
    (store.savedRow credential).lastUsedStep = credential.lastUsedStep := by
  unfold savedRow
  cases store.mfaCredentials.get credential.id <;> rfl

theorem findByStatus_some {userId : UserId} {status : MfaStatus} {row : MfaCredential}
    (h : store.findByStatus userId status = some row) :
    store.mfaCredentials.get row.id = some row ∧ row.userId = userId ∧ row.status = status := by
  have hmem := List.mem_of_head? h
  obtain ⟨hrow, huser, hstatus⟩ : row ∈ store.mfaCredentials.rows ∧ row.userId = userId ∧
      row.status = status := by
    simpa [Table.select] using hmem
  exact ⟨Table.get_of_mem hrow, huser, hstatus⟩

end IdentityStore

end AccessCore
