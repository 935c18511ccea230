/-
  Second factors, as domain objects (`identity/domain/mfa-credential.ts`,
  `identity/domain/recovery-code.ts`, `identity/infrastructure/crypto/rfc6238-totp.ts`).

  A credential checks its own transitions: only a pending one is activated, only an active one is
  used, and only for a step later than the last.  Those checks are about the copy in memory.

  The HMAC, the encryption of secrets and the hash of recovery codes are parameters.
-/
import Mathlib

namespace AccessCore

/-! ## Credentials -/

structure UserId where
  value : String
deriving DecidableEq, Repr

inductive MfaStatus where
  | pending
  | active
  | revoked
deriving DecidableEq, Repr

/-- `MfaCredentialProps`; the type of a credential is always `totp`. -/
structure MfaCredential where
  id : String
  userId : UserId
  status : MfaStatus
  secretCiphertext : String
  algorithm : String
  digits : Nat
  period : Nat
  lastUsedStep : Option Int
  createdAt : Int
  activatedAt : Option Int
  revokedAt : Option Int
deriving DecidableEq, Repr

def MfaStatus.text : MfaStatus → String
  | pending => "pending"
  | active => "active"
  | revoked => "revoked"

namespace MfaCredential

def enroll (id : String) (userId : UserId) (secretCiphertext : String) (now : Int) :
    MfaCredential :=
  ⟨id, userId, .pending, secretCiphertext, "SHA1", 6, 30, none, now, none, none⟩

def activate (credential : MfaCredential) (now : Int) : Except String MfaCredential :=
  if credential.status ≠ .pending then
    .error ("cannot activate an MFA credential in status " ++ credential.status.text)
  else .ok { credential with status := .active, activatedAt := some now }

def registerUse (credential : MfaCredential) (step : Int) : Except String MfaCredential :=
  if credential.status ≠ .active then
    .error ("cannot use an MFA credential in status " ++ credential.status.text)
  else if credential.lastUsedStep.any (step ≤ ·) then .error "TOTP step replay rejected"
  else .ok { credential with lastUsedStep := some step }

def revoke (credential : MfaCredential) (now : Int) : MfaCredential :=
  if credential.status = .revoked then credential
  else { credential with status := .revoked, revokedAt := some now }

theorem activate_ok {credential activated : MfaCredential} {now : Int}
    (h : credential.activate now = .ok activated) : credential.status = .pending ∧
      activated = { credential with status := .active, activatedAt := some now } := by
  unfold activate at h
  split_ifs at h with hstatus
  exact ⟨of_not_not hstatus, (Except.ok.inj h).symm⟩

theorem registerUse_ok {credential used : MfaCredential} {step : Int}
    (h : credential.registerUse step = .ok used) : credential.status = .active ∧
      (∀ last ∈ credential.lastUsedStep, last < step) ∧
      used = { credential with lastUsedStep := some step } := by
  unfold registerUse at h
  split_ifs at h with hstatus hreplay
  refine ⟨of_not_not hstatus, ?_, (Except.ok.inj h).symm⟩
  intro last hlast
  rw [Option.mem_def.mp hlast] at hreplay
  simpa using hreplay

@[simp] theorem revoke_id (credential : MfaCredential) (now : Int) :
    (credential.revoke now).id = credential.id := by
  unfold revoke
  split_ifs <;> rfl

@[simp] theorem revoke_status (credential : MfaCredential) (now : Int) :
    (credential.revoke now).status = .revoked := by
  unfold revoke
  split_ifs with h
  · exact h
  · rfl

end MfaCredential

structure RecoveryCode where
  id : String
  userId : UserId
  codeHash : String
  consumedAt : Option Int
  createdAt : Int
deriving DecidableEq, Repr

namespace RecoveryCode

def issue (id : String) (userId : UserId) (codeHash : String) (now : Int) : RecoveryCode :=
  ⟨id, userId, codeHash, none, now⟩

def isConsumed (code : RecoveryCode) : Bool := code.consumedAt.isSome

def consume (code : RecoveryCode) (now : Int) : Except String RecoveryCode :=
  if code.consumedAt.isSome then .error "recovery code already consumed"
  else .ok { code with consumedAt := some now }

end RecoveryCode

/-! ## Time-based codes -/

/-- What the handlers use of the cryptographic libraries.  A secret that cannot be decrypted is an
    exception. -/
structure Crypto where
  hmacSha1 : List UInt8 → List UInt8 → List UInt8
  encrypt : List UInt8 → String
  decrypt : String → Option (List UInt8)
  hash : String → String

namespace Rfc6238Totp

def digits : Nat := 6

/-- The eight bytes of a counter, the highest first. -/
def counterBytes (step : Nat) : List UInt8 :=
  (List.range 8).map fun i => UInt8.ofNat (step / 256 ^ (7 - i))

/-- `digest.readUInt32BE(offset)`. -/
def readUInt32BE (digest : List UInt8) (offset : Nat) : Nat :=
  ((digest.drop offset).take 4).foldl (fun value byte => value * 256 + byte.toNat) 0

/-- `text.padStart(width, '0')`. -/
def padStart (width : Nat) (text : String) : String :=
  String.ofList (List.replicate (width - text.length) '0') ++ text

def computeCode (hmacSha1 : List UInt8 → List UInt8 → List UInt8) (secret : List UInt8)
    (step : Nat) : String :=
  let digest := hmacSha1 secret (counterBytes step)
  let offset := (digest.getLast?.getD 0).toNat % 16
  let binary := readUInt32BE digest offset % 2 ^ 31
  padStart digits (toString (binary % 10 ^ digits))

/-- The length of a text in UTF-16 units. -/
def textLength (text : String) : Nat :=
  (text.toList.map fun c => if c.toNat < 0x10000 then 1 else 2).sum

/-- `equals`: `timingSafeEqual` throws on buffers of different lengths, which two texts of one
    length can still be. -/
def equals (a b : String) : Except String Bool :=
  if textLength a ≠ textLength b then .ok false
  else if a.utf8ByteSize ≠ b.utf8ByteSize then
    .error "Input buffers must have the same byte length"
  else .ok (a = b)

/-- `TotpVerification`. -/
structure Verification where
  valid : Bool
  step : Int
deriving DecidableEq, Repr

/-- The window search of `verify`: the first step after `afterStep` whose code matches. -/
def search (hmacSha1 : List UInt8 → List UInt8 → List UInt8) (secret : List UInt8) (code : String)
    (afterStep : Int) : List Int → Except String Verification
  | [] => .ok ⟨false, -1⟩
  | step :: steps =>
    if step ≤ afterStep then search hmacSha1 secret code afterStep steps
    else do
      if ← equals (computeCode hmacSha1 secret step.toNat) code then .ok ⟨true, step⟩
      else search hmacSha1 secret code afterStep steps

/-- The steps of a window around the step of a time. -/
def windowSteps (at_ : Int) (window : Nat) : List Int :=
  (List.range (2 * window + 1)).map fun i => at_ / 30000 - window + i

def verify (hmacSha1 : List UInt8 → List UInt8 → List UInt8) (secret : List UInt8) (code : String)
    (at_ : Int) (window : Nat) (afterStep : Option Int) : Except String Verification :=
  search hmacSha1 secret code (afterStep.getD (-1)) (windowSteps at_ window)

end Rfc6238Totp

end AccessCore
