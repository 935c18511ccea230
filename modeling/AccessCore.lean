import AccessCore.Lib.Proc
import AccessCore.Lib.Faults
import AccessCore.Lib.Interleave
import AccessCore.Lib.LeadsTo
import AccessCore.Lib.Plan
import AccessCore.Lib.Search
import AccessCore.Lib.Gather
import AccessCore.Lib.Hints
import AccessCore.Lib.Granted
import AccessCore.Lib.Tour
import AccessCore.Lib.Marking
import AccessCore.Lib.Unions
import AccessCore.Lib.OrderedMap
import AccessCore.Lib.Memo
import AccessCore.Lib.Table
import AccessCore.Lib.Kleene
import AccessCore.Lib.PlaceValue
import AccessCore.Lib.BitText
import AccessCore.Lib.CommitLog
import AccessCore.Lib.HashChain
import AccessCore.Lib.JsString
import AccessCore.Lib.Json
import AccessCore.Lib.JsonParse
import AccessCore.Lib.JsonInteger
import AccessCore.Authz.Refs
import AccessCore.Authz.Namespace
import AccessCore.Authz.Evaluate
import AccessCore.Authz.Collect
import AccessCore.Authz.Rules
import AccessCore.Authz.Semantics
import AccessCore.Authz.Agreement
import AccessCore.Authz.UnionOnly
import AccessCore.Authz.Flattening
import AccessCore.Authz.Provenance
import AccessCore.Authz.Policy
import AccessCore.Authz.Conditions
import AccessCore.Authz.Bounds
import AccessCore.Authz.Addresses
import AccessCore.Authz.Store
import AccessCore.Authz.Closure
import AccessCore.Authz.Loading
import AccessCore.Authz.Pdp
import AccessCore.Authz.Isolation
import AccessCore.Authz.Simulation
import AccessCore.Authz.Sufficiency
import AccessCore.Authz.Writers
import AccessCore.Authz.Revisions
import AccessCore.Authz.Watch
import AccessCore.Authz.DecisionCache
import AccessCore.Authz.DecisionLog
import AccessCore.Authz.Tenancy
import AccessCore.Authz.Indexer
import AccessCore.Authz.IndexerProgress
import AccessCore.Authz.IndexContents
import AccessCore.Authz.IndexCompleteness
import AccessCore.Authz.IndexCatchUp
import AccessCore.Authz.IndexFreshness
import AccessCore.Authz.IndexTransparency
import AccessCore.Authz.FailClosed
import AccessCore.Authz.Expansion
import AccessCore.Identity.TotpSecret
import AccessCore.Identity.Mfa
import AccessCore.Identity.MfaHandlers
import AccessCore.Identity.MfaRaces
import AccessCore.Identity.CredentialLifecycle
import AccessCore.Identity.RecoveryCodes
import AccessCore.Identity.FactorRemoval
import AccessCore.Identity.Enrollment
import AccessCore.Identity.ActivationFaults
import AccessCore.Identity.Passwords
import AccessCore.Identity.PasswordRaces
import AccessCore.Identity.UserWrites
import AccessCore.Authn.Tokens
import AccessCore.Authn.TokenText
import AccessCore.Authn.SigningKeys
import AccessCore.Authn.KeyLifecycle
import AccessCore.Authn.Sessions
import AccessCore.Authn.SessionHandlers
import AccessCore.Authn.Rotation
import AccessCore.Authn.Asks
import AccessCore.Authn.RefreshSafety
import AccessCore.Authn.ParallelRefresh
import AccessCore.Authn.LiveSessions
import AccessCore.Authn.Termination
import AccessCore.Authn.EnrolledStepUp
import AccessCore.Authn.Lockout
import AccessCore.Authn.Guesses
import AccessCore.Authn.ResetFaults
import AccessCore.Identity.Registration
import AccessCore.Identity.AccountOutbox
import AccessCore.Identity.AccountProvenance
import AccessCore.Identity.AccountOwnership
import AccessCore.Identity.RegistrationAnswers
import AccessCore.Identity.MailedTokens
import AccessCore.Security.AuditChain
import AccessCore.Security.AuditLog
