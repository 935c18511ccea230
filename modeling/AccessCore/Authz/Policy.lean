/-
  The condition language, policies and how they overrule a relationship decision
  (`authz/domain/policy/condition.ts`, `evaluate-condition.ts`, `policy.ts`, `decide.ts`,
  `boundary.ts`).

  A condition evaluates to true, false or indeterminate.  Attributes may be missing, a date may be
  invalid and a text may fail to parse; numbers are read as rationals, with `none` for NaN.  How a
  text is read as a point in time is the host's `Date.parse`, a parameter here.

  A `Policy` carries the proof that `parseCondition` accepted its condition, since the policy
  writer stores no other.  What the rest of the development uses of a decision is its effect, and
  the effect depends on the relationship decision only through its own effect
  (`decide_effect_congr`).
-/
import AccessCore.Authz.Evaluate

namespace AccessCore

/-! ## Conditions -/

inductive AttrPath where
  | principalAal
  | envIp
  | envNow
deriving DecidableEq, Repr

inductive LitValue where
  | boolean (value : Bool)
  | number (value : Rat)
  | string (value : String)
deriving DecidableEq, Repr

inductive Term where
  | attr (path : AttrPath)
  | lit (value : LitValue)
deriving DecidableEq, Repr

inductive CmpOp where
  | eq
  | ne
  | lt
  | le
  | gt
  | ge
deriving DecidableEq, Repr

/-- An element of an `in` set. -/
inductive SetElement where
  | string (value : String)
  | number (value : Rat)
deriving DecidableEq, Repr

inductive Condition where
  | and (children : List Condition)
  | or (children : List Condition)
  | not (child : Condition)
  | cmp (op : CmpOp) (left right : Term)
  | isIn (needle : Term) (set : List SetElement)
  | ipInCidr (ip : Term) (cidrs : List String)

inductive ConditionError where
  | conditionTooDeep
  | tooManyConditionNodes
  | emptyChildren
  | emptySet
  | mixedSetTypes
  | typeMismatch
  | emptyCidrs
  | invalidCidr
  | invalidTimestamp
deriving DecidableEq, Repr

/-- `MAX_CONDITION_DEPTH`. -/
def maxConditionDepth : Nat := 16

/-- `MAX_CONDITION_NODES`. -/
def maxConditionNodes : Nat := 64

inductive ValueType where
  | number
  | string
  | boolean
  | timestamp
deriving DecidableEq, Repr

/-- `ATTR_TYPES`. -/
def attrType : AttrPath → ValueType
  | .principalAal => .number
  | .envIp => .string
  | .envNow => .timestamp

def termType : Term → ValueType
  | .attr path => attrType path
  | .lit (.number _) => .number
  | .lit (.boolean _) => .boolean
  | .lit (.string _) => .string

def temporalPair (a b : ValueType) : Bool :=
  (a = .timestamp && (b = .timestamp || b = .string)) ||
    (b = .timestamp && (a = .timestamp || a = .string))

def comparable (a b : ValueType) : Bool := a = b || temporalPair a b

/-! ## Addresses -/

/-- `/^\d{1,3}$/`. -/
def isShortDecimal (text : List Char) : Bool :=
  1 ≤ text.length && text.length ≤ 3 && text.all Char.isDigit

/-- `Number(text)` of a text of digits. -/
def decimalValue (text : List Char) : Nat :=
  text.foldl (fun n c => n * 10 + (c.toNat - '0'.toNat)) 0

def isHexDigit (c : Char) : Bool :=
  c.isDigit || ('a' ≤ c && c ≤ 'f') || ('A' ≤ c && c ≤ 'F')

def isValidCidr (cidr : String) : Bool :=
  match splitAtFirst '/' cidr.toList with
  | none => false
  | some (addr, prefixText) =>
    if !isShortDecimal prefixText then false
    else if ':' ∈ addr then
      decimalValue prefixText ≤ 128 && 2 ≤ addr.length && addr.all fun c => isHexDigit c || c = ':'
    else
      let octets := addr.splitOn '.'
      if octets.length ≠ 4 then false
      else if !octets.all fun octet => isShortDecimal octet && decimalValue octet ≤ 255 then false
      else decimalValue prefixText ≤ 32

/-! ## Acceptance -/

section Parse

variable (dateParse : String → Option Int)

/-- A text literal next to a timestamp must be a date. -/
def invalidTimestamp : Term → Bool
  | .lit (.string value) => (dateParse value).isNone
  | _ => false

def checkCmp (op : CmpOp) (left right : Term) : Option ConditionError :=
  let l := termType left
  let r := termType right
  let ordered := op = .lt || op = .le || op = .gt || op = .ge
  if !comparable l r then some .typeMismatch
  else if ordered && !(l = .number && r = .number) && !temporalPair l r then some .typeMismatch
  else if (l = .timestamp || r = .timestamp) &&
      (invalidTimestamp dateParse left || invalidTimestamp dateParse right) then
    some .invalidTimestamp
  else none

/-- `typeof element`. -/
def SetElement.type : SetElement → ValueType
  | .string _ => .string
  | .number _ => .number

mutual
/-- `walk` of `parseCondition`: the error, or the number of nodes counted so far. -/
def parseConditionAt (node : Condition) (depth nodes : Nat) : Except ConditionError Nat :=
  if maxConditionDepth < depth then .error .conditionTooDeep
  else if maxConditionNodes < nodes + 1 then .error .tooManyConditionNodes
  else match node with
    | .and children =>
      if children.isEmpty then .error .emptyChildren
      else parseConditionsAt children (depth + 1) (nodes + 1)
    | .or children =>
      if children.isEmpty then .error .emptyChildren
      else parseConditionsAt children (depth + 1) (nodes + 1)
    | .not child => parseConditionAt child (depth + 1) (nodes + 1)
    | .cmp op left right =>
      match checkCmp dateParse op left right with
      | some error => .error error
      | none => .ok (nodes + 1)
    | .isIn needle set =>
      match set with
      | [] => .error .emptySet
      | first :: _ =>
        if !set.all fun element => element.type = first.type then .error .mixedSetTypes
        else if !comparable (termType needle) first.type then .error .typeMismatch
        else .ok (nodes + 1)
    | .ipInCidr ip cidrs =>
      if termType ip ≠ .string then .error .typeMismatch
      else if cidrs.isEmpty then .error .emptyCidrs
      else if !cidrs.all isValidCidr then .error .invalidCidr
      else .ok (nodes + 1)
/-- The children in order, stopping at the first error. -/
def parseConditionsAt (children : List Condition) (depth nodes : Nat) :
    Except ConditionError Nat :=
  match children with
  | [] => .ok nodes
  | child :: children =>
    match parseConditionAt child depth nodes with
    | .ok nodes => parseConditionsAt children depth nodes
    | .error error => .error error
end

/-- `parseCondition`, which returns the condition itself. -/
def parseCondition (condition : Condition) : Except ConditionError Condition :=
  match parseConditionAt dateParse condition 0 0 with
  | .ok _ => .ok condition
  | .error error => .error error

end Parse

/-! ## Evaluation -/

/-- `Verdict`: `indeterminate` is `none`. -/
abbrev Verdict := Option Bool

/-- What a policy may look at.  A missing attribute is `none`; the inner `none` of `now` is an
    invalid date. -/
structure PolicyContext where
  aal : Option Rat
  authTime : Option Int
  ip : Option String
  now : Option (Option Int)

/-- `Resolved`. -/
inductive Resolved where
  | number (value : Rat)
  | string (value : String)
  | boolean (value : Bool)
  | date (time : Option Int)
  | undefined

def resolveTerm (ctx : PolicyContext) : Term → Resolved
  | .lit (.boolean value) => .boolean value
  | .lit (.number value) => .number value
  | .lit (.string value) => .string value
  | .attr .principalAal => (ctx.aal.map Resolved.number).getD .undefined
  | .attr .envIp => (ctx.ip.map Resolved.string).getD .undefined
  | .attr .envNow => (ctx.now.map Resolved.date).getD .undefined

/-- Comparison of numbers, `none` being NaN. -/
def ordered (op : CmpOp) (left right : Option Rat) : Verdict :=
  match left, right with
  | some l, some r =>
    some (match op with
      | .eq => decide (l = r)
      | .ne => decide (l ≠ r)
      | .lt => decide (l < r)
      | .le => decide (l ≤ r)
      | .gt => decide (r < l)
      | .ge => decide (r ≤ l))
  | _, _ => some (op = .ne)

/-- `equality`, for texts and booleans. -/
def equality {α : Type} [DecidableEq α] (op : CmpOp) (left right : α) : Verdict :=
  match op with
  | .eq => some (left = right)
  | .ne => some (left ≠ right)
  | _ => none

section Evaluate

variable (dateParse : String → Option Int)

/-- `toEpoch`: undefined is `none`, an invalid date `some none`. -/
def toEpoch : Resolved → Option (Option Rat)
  | .date time => some (time.map fun ms => (ms : Rat))
  | .string value => (dateParse value).map fun ms => some (ms : Rat)
  | _ => none

def compare (op : CmpOp) (left right : Resolved) : Verdict :=
  match left, right with
  | .undefined, _ => none
  | _, .undefined => none
  | .date time, right =>
    match toEpoch dateParse (.date time), toEpoch dateParse right with
    | some l, some r => ordered op l r
    | _, _ => none
  | left, .date time =>
    match toEpoch dateParse left, toEpoch dateParse (.date time) with
    | some l, some r => ordered op l r
    | _, _ => none
  | .number l, .number r => ordered op (some l) (some r)
  | .string l, .string r => equality op l r
  | .boolean l, .boolean r => equality op l r
  | _, _ => none

def parseIpv4 (value : List Char) : Option Nat :=
  let parts := value.splitOn '.'
  if parts.length ≠ 4 then none
  else parts.foldlM (fun result part =>
    if !isShortDecimal part then none
    else if 255 < decimalValue part then none
    else some ((result <<< 8) ||| decimalValue part)) 0

/-- `value.split('::')`. -/
def splitDoubleColon : List Char → List (List Char)
  | [] => [[]]
  | ':' :: ':' :: rest => [] :: splitDoubleColon rest
  | c :: rest =>
    match splitDoubleColon rest with
    | part :: parts => (c :: part) :: parts
    | [] => [[c]]

def hexDigitValue (c : Char) : Nat :=
  if c.isDigit then c.toNat - '0'.toNat
  else if 'a' ≤ c && c ≤ 'f' then c.toNat - 'a'.toNat + 10
  else c.toNat - 'A'.toNat + 10

def parseGroups (part : List Char) : Option (List Nat) :=
  if part.isEmpty then some []
  else (part.splitOn ':').mapM fun group =>
    if 1 ≤ group.length && group.length ≤ 4 && group.all isHexDigit then
      some (group.foldl (fun n c => n * 16 + hexDigitValue c) 0)
    else none

def parseIpv6 (value : List Char) : Option Nat := do
  let groups ← match splitDoubleColon value with
    | [_] => do
      let all ← parseGroups value
      if all.length = 8 then some all else none
    | [headPart, tailPart] => do
      let head ← parseGroups headPart
      let tail ← parseGroups tailPart
      if head.length + tail.length < 8 then
        some (head ++ List.replicate (8 - head.length - tail.length) 0 ++ tail)
      else none
    | _ => none
  return groups.foldl (fun result group => (result <<< 16) ||| group) 0

/-- An address: its width in bits and its value. -/
structure ParsedIp where
  bits : Nat
  value : Nat
deriving DecidableEq, Repr

def parseIp (value : List Char) : Option ParsedIp :=
  if ':' ∈ value then (parseIpv6 value).map fun v => ⟨128, v⟩
  else (parseIpv4 value).map fun v => ⟨32, v⟩

/-- `containedIn`, for a prefix of digits, the only kind an accepted range has. -/
def containedIn (ip : ParsedIp) (cidr : String) : Bool :=
  match splitAtFirst '/' cidr.toList with
  | none => false
  | some (addr, prefixText) =>
    match parseIp addr with
    | none => false
    | some base =>
      let prefixLength := decimalValue prefixText
      if base.bits ≠ ip.bits then false
      else if !(!prefixText.isEmpty && prefixText.all Char.isDigit) then false
      else if ip.bits < prefixLength then false
      else
        let all := (1 <<< ip.bits) - 1
        let mask := all ^^^ ((1 <<< (ip.bits - prefixLength)) - 1)
        (ip.value &&& mask) = (base.value &&& mask)

def evalIpInCidr (value : Resolved) (cidrs : List String) : Verdict :=
  match value with
  | .string text => (parseIp text.toList).map fun ip => cidrs.any (containedIn ip)
  | _ => none

def evalIn (needle : Resolved) (set : List SetElement) : Verdict :=
  match needle with
  | .string value => some (.string value ∈ set)
  | .number value => some (.number value ∈ set)
  | _ => none

mutual
def evalCondition (ctx : PolicyContext) : Condition → Verdict
  | .and children => evalAnd ctx children (some true)
  | .or children => evalOr ctx children (some false)
  | .not child => (evalCondition ctx child).map (!·)
  | .cmp op left right => compare dateParse op (resolveTerm ctx left) (resolveTerm ctx right)
  | .isIn needle set => evalIn (resolveTerm ctx needle) set
  | .ipInCidr ip cidrs => evalIpInCidr (resolveTerm ctx ip) cidrs
/-- The loop of the `and` case. -/
def evalAnd (ctx : PolicyContext) : List Condition → Verdict → Verdict
  | [], result => result
  | child :: children, result =>
    match evalCondition ctx child with
    | some false => some false
    | some true => evalAnd ctx children result
    | none => evalAnd ctx children none
/-- The loop of the `or` case. -/
def evalOr (ctx : PolicyContext) : List Condition → Verdict → Verdict
  | [], result => result
  | child :: children, result =>
    match evalCondition ctx child with
    | some true => some true
    | some false => evalOr ctx children result
    | none => evalOr ctx children none
end

end Evaluate

/-! ## Policies -/

inductive PolicyEffect where
  | permit
  | forbid
deriving DecidableEq, Repr

/-- `ANY_ACTION`. -/
def anyAction : String := "*"

/-- A stored policy, with the proof that its condition was accepted. -/
structure Policy (dateParse : String → Option Int) where
  id : String
  orgId : OrgId
  effect : PolicyEffect
  resourceType : String
  action : String
  condition : Condition
  revision : Revision
  accepted : parseCondition dateParse condition = .ok condition

variable {dateParse : String → Option Int}

/-- The first loop of `decide`: the forbid policy that does not clearly fail to match. -/
def forbidding (policies : List (Policy dateParse)) (ctx : PolicyContext) :
    Option (Policy dateParse) :=
  policies.find? fun policy =>
    policy.effect = .forbid && evalCondition dateParse ctx policy.condition ≠ some false

/-- The second loop of `decide`: the permit policy that clearly matches. -/
def permitting (policies : List (Policy dateParse)) (ctx : PolicyContext) :
    Option (Policy dateParse) :=
  policies.find? fun policy =>
    policy.effect = .permit && evalCondition dateParse ctx policy.condition = some true

/-- `decide`. -/
def decidePolicies (rebac : Decision) (policies : List (Policy dateParse))
    (ctx : PolicyContext) : Decision :=
  match forbidding policies ctx with
  | some policy =>
    deny [⟨"forbid_matched", "Denied by an explicit forbid policy (" ++ policy.id ++ ").",
      none, none⟩]
  | none =>
    if rebac.effect = .permit then rebac
    else
      match permitting policies ctx with
      | some policy =>
        permit [⟨"grant.policy", "Permitted by policy " ++ policy.id ++ ".", none, none⟩]
      | none => rebac

theorem decidePolicies_nil (rebac : Decision) (ctx : PolicyContext) :
    decidePolicies rebac ([] : List (Policy dateParse)) ctx = rebac := by
  unfold decidePolicies forbidding permitting
  simp

/-- The effect depends on the relationship decision only through its effect. -/
theorem decide_effect_congr {rebac rebac' : Decision} (h : rebac.effect = rebac'.effect)
    (policies : List (Policy dateParse)) (ctx : PolicyContext) :
    (decidePolicies rebac policies ctx).effect = (decidePolicies rebac' policies ctx).effect := by
  unfold decidePolicies
  cases forbidding policies ctx with
  | some policy => rfl
  | none =>
    simp only [← h]
    by_cases hp : rebac.effect = .permit
    · simp only [hp, if_true]
      rw [← h, hp]
    · simp only [hp, if_false]
      cases permitting policies ctx with
      | some policy => rfl
      | none => exact h

/-! ## Boundaries -/

structure BoundaryTarget where
  resourceType : String
  action : String
deriving DecidableEq, Repr

structure PermissionBoundary where
  subject : EntityRef
  allow : List BoundaryTarget

structure OrgGuardrail where
  allow : List BoundaryTarget

structure Bounds where
  boundaries : List PermissionBoundary
  guardrail : Option OrgGuardrail

/-- `UNBOUNDED`. -/
def unbounded : Bounds := ⟨[], none⟩

def allows (allow : List BoundaryTarget) (target : BoundaryTarget) : Bool :=
  allow.any fun entry =>
    entry.resourceType = target.resourceType && (entry.action = target.action || entry.action = "*")

def applyBounds (decision : Decision) (target : BoundaryTarget) (subject : EntityRef)
    (bounds : Bounds) : Decision :=
  if decision.effect ≠ .permit then decision
  else if bounds.guardrail.any fun guardrail => !allows guardrail.allow target then
    deny [⟨"outside_org_guardrail",
      "The permitted access lies outside the organization guardrail.", none, none⟩]
  else if (bounds.boundaries.find? fun candidate => candidate.subject = subject).any
      fun boundary => !allows boundary.allow target then
    deny [⟨"outside_permission_boundary",
      "The permitted access lies outside the principal permission boundary.", none, none⟩]
  else decision

/-- Without bounds nothing is taken away. -/
theorem applyBounds_unbounded (decision : Decision) (target : BoundaryTarget)
    (subject : EntityRef) : applyBounds decision target subject unbounded = decision := by
  unfold applyBounds unbounded
  simp

end AccessCore
