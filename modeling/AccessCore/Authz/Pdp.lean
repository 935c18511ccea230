/-
  The policy decision point (`authz/application/pdp-service.ts`): `prepare` and `evaluateWithin`.

  A check of a principal loads the closure of the request, evaluates it, and lets the policies of
  the organization overrule the result.  It reads one database state through a context; the clock
  is read once and passed in.

  A consistency token is a revision here: the text it travels as is read back before a check is
  made.
-/
import AccessCore.Authz.Loading
import AccessCore.Authz.Policy

namespace AccessCore

/-! ## Requests -/

structure Principal where
  subject : EntityRef
  orgId : Option OrgId
  assuranceLevel : Rat
  authenticatedAt : Option Int

structure ConsistencyToken where
  revision : Revision
deriving DecidableEq, Repr

inductive ConsistencyRequirement where
  | full
  | atLeast (token : ConsistencyToken)
deriving DecidableEq, Repr

structure RequestContext where
  ip : String
  consistency : ConsistencyRequirement

/-- The revision a request asks the store to have reached. -/
def ConsistencyRequirement.requiredRevision : ConsistencyRequirement → Option Revision
  | .full => none
  | .atLeast token => some token.revision

/-! ## Evaluation within a context -/

/-- `EvaluationResult`. -/
structure EvaluationResult where
  decision : Decision
  revisionUsed : Revision
  cacheable : Bool

/-- `Prepared`. -/
inductive Prepared (dateParse : String → Option Int) where
  | deny (decision : Decision) (revisionUsed : Revision)
  | ok (rebac : Decision) (applicable : List (Policy dateParse)) (policyContext : PolicyContext)
      (target : BoundaryTarget) (subject : EntityRef) (revisionUsed : Revision)

def noOrgContext : Decision :=
  deny [⟨"no_org_context", "The principal is not scoped to an organization.", none, none⟩]

def consistencyUnavailable : Decision :=
  deny [⟨"consistency_unavailable",
    "The store has not caught up to the requested consistency token.", none, none⟩]

variable {dateParse : String → Option Int} {db : Database dateParse}

section Evaluate

variable (principal : Principal) (action : Action) (resource : EntityRef)
  (request : RequestContext) (now : Int) (context : EvaluationContext db)

/-- What the policies of a request may look at. -/
def policyContextOf : PolicyContext :=
  ⟨some principal.assuranceLevel, principal.authenticatedAt, some request.ip, some (some now)⟩

def prepare : Prepared dateParse × EvaluationContext db :=
  match principal.orgId with
  | none => (.deny noOrgContext ⟨0⟩, context)
  | some orgId =>
    if request.consistency.requiredRevision.any fun r => !context.revisionUsed.isAtLeast r then
      (.deny consistencyUnavailable context.revisionUsed, context)
    else
      let namespace_ := context.cachedNamespace orgId resource.type
      let relations := match namespace_.1 with
        | some definition => definition.requiredRelationsFor action
        | none => []
      let snapshot := loadClosure orgId resource relations (some principal.subject) namespace_.2
      let rebac := evaluate ⟨orgId, principal.subject, action, resource⟩ snapshot.1
      let applicable := db.listByTarget orgId resource.type action.verb
      (.ok rebac applicable (policyContextOf principal request now)
        ⟨resource.type, action.verb⟩ principal.subject context.revisionUsed, snapshot.2)

/-- The result `evaluateWithin` makes of what was prepared. -/
def resultOf : Prepared dateParse → EvaluationResult
  | .deny decision revisionUsed => ⟨decision, revisionUsed, false⟩
  | .ok rebac applicable policyContext target subject revisionUsed =>
    ⟨applyBounds (decidePolicies rebac applicable policyContext) target subject unbounded,
      revisionUsed, applicable.length = 0⟩

def evaluateWithin : EvaluationResult × EvaluationContext db :=
  let prepared := prepare principal action resource request now context
  (resultOf prepared.1, prepared.2)

end Evaluate

/-- The uncached check: one evaluation in a transaction of its own. -/
def Database.evaluated (db : Database dateParse) (principal : Principal) (action : Action)
    (resource : EntityRef) (request : RequestContext) (now : Int) : EvaluationResult :=
  (evaluateWithin principal action resource request now (EvaluationContext.opened db)).1

/-! ## The relationship decision of a check -/

/-- The relations a check of `action` on `resource` starts from. -/
def Database.requiredRelations (db : Database dateParse) (orgId : OrgId) (action : Action)
    (resource : EntityRef) : List String :=
  match db.findByNamespace orgId resource.type with
  | some definition => definition.requiredRelationsFor action
  | none => []

/-- `loadClosure` for a check, then `evaluate`. -/
def Database.rebac (db : Database dateParse) (query : AuthorizationQuery) : Decision :=
  evaluate query (loadClosure query.orgId query.resource
    (db.requiredRelations query.orgId query.action query.resource) (some query.subject)
    (EvaluationContext.opened db)).1

end AccessCore
