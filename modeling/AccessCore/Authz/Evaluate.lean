/-
  The check walk: `derive` and `evaluate` (`authz/domain/evaluate.ts`), with the view of the
  membership index it consults (`indexed-memberships.ts`).

  A walk is depth first over nodes `object#relation`.  It carries the keys visited so far and a
  flag that says whether the depth bound cut it.  Every operand of an intersection or exclusion
  gets a fresh walk, and an operand that was cut makes the composite fail and sets the outer flag.

  The functions recurse on fuel, `none` being out of fuel.  `deriveFuel_isSome` says that the fuel
  `walkFuel` computes from the snapshot always suffices: a userset or tupleset step spends depth,
  and a computed userset, which spends none, descends in the rank of its config.  So `derive` and
  `evaluate` are total functions.
-/
import AccessCore.Authz.Namespace

namespace AccessCore

/-- `MAX_USERSET_DEPTH`. -/
def maxUsersetDepth : Nat := 10

/-! ## The membership index view -/

structure IndexedMembership where
  object : EntityRef
  relation : String
  depth : Nat
deriving DecidableEq, Repr

/-- The indexed sets of one member, by node key. -/
structure IndexedMemberships where
  member : Option String
  depths : OrderedMap String Nat

namespace IndexedMemberships

def none : IndexedMemberships := ⟨.none, []⟩

/-- Keep the smaller depth of a node listed twice. -/
def keep (depths : OrderedMap String Nat) (membership : IndexedMembership) :
    OrderedMap String Nat :=
  let key := nodeKey membership.object membership.relation
  match OrderedMap.get? depths key with
  | .none => OrderedMap.set depths key membership.depth
  | some seen =>
    if membership.depth < seen then OrderedMap.set depths key membership.depth else depths

def of (member : EntityRef) (memberships : List IndexedMembership) : IndexedMemberships :=
  ⟨some (formatEntityRef member), memberships.foldl keep []⟩

def depthOf (view : IndexedMemberships) (object : EntityRef) (relation : String)
    (member : EntityRef) : Option Nat :=
  if view.member ≠ some (formatEntityRef member) then .none
  else OrderedMap.get? view.depths (nodeKey object relation)

theorem get?_keep {depths : OrderedMap String Nat} {m : IndexedMembership} {key : String}
    {d : Nat} (h : OrderedMap.get? (keep depths m) key = some d) :
    OrderedMap.get? depths key = some d ∨ (nodeKey m.object m.relation = key ∧ m.depth = d) := by
  have hset : OrderedMap.get? (OrderedMap.set depths (nodeKey m.object m.relation) m.depth) key =
      some d → OrderedMap.get? depths key = some d ∨
        (nodeKey m.object m.relation = key ∧ m.depth = d) := by
    intro h
    rw [OrderedMap.get?_set] at h
    split_ifs at h with hk
    · exact Or.inr ⟨hk, by simpa using h⟩
    · exact Or.inl h
  unfold keep at h
  cases hg : OrderedMap.get? depths (nodeKey m.object m.relation) with
  | none =>
    simp only [hg] at h
    exact hset h
  | some seen =>
    simp only [hg] at h
    split_ifs at h
    · exact hset h
    · exact Or.inl h

/-- A depth the view reports is the depth of one of its entries. -/
theorem mem_of_depthOf {member : EntityRef} {memberships : List IndexedMembership}
    {object : EntityRef} {relation : String} {target : EntityRef} {d : Nat}
    (h : (of member memberships).depthOf object relation target = some d) :
    formatEntityRef member = formatEntityRef target ∧
      ∃ m ∈ memberships, nodeKey m.object m.relation = nodeKey object relation ∧ m.depth = d := by
  have hfold : ∀ (ms : List IndexedMembership) (depths : OrderedMap String Nat) (key : String),
      OrderedMap.get? (ms.foldl keep depths) key = some d →
        OrderedMap.get? depths key = some d ∨
          ∃ m ∈ ms, nodeKey m.object m.relation = key ∧ m.depth = d := by
    intro ms
    induction ms with
    | nil => intro depths key h; exact Or.inl h
    | cons m ms ih =>
      intro depths key h
      rcases ih _ _ h with h | ⟨m', hm', h⟩
      · rcases get?_keep h with h | h
        · exact Or.inl h
        · exact Or.inr ⟨m, List.mem_cons_self .., h⟩
      · exact Or.inr ⟨m', List.mem_cons_of_mem _ hm', h⟩
  unfold depthOf at h
  split_ifs at h with hm
  refine ⟨by simpa [of] using hm, ?_⟩
  rcases hfold _ _ _ h with h | h
  · simp at h
  · exact h

end IndexedMemberships

/-! ## Queries, snapshots and decisions -/

structure AuthorizationQuery where
  orgId : OrgId
  subject : EntityRef
  action : Action
  resource : EntityRef

inductive Effect where
  | permit
  | deny
deriving DecidableEq, Repr

structure Reason where
  code : String
  message : String
  relation : Option String := none
  path : Option (List String) := none
deriving DecidableEq, Repr

structure Decision where
  effect : Effect
  reasons : List Reason
deriving DecidableEq, Repr

/-- Some reason of the decision has this code. -/
def Decision.cites (decision : Decision) (code : String) : Bool :=
  decision.reasons.any fun reason => reason.code = code

def deny (reasons : List Reason) : Decision := ⟨.deny, reasons⟩

def permit (reasons : List Reason) : Decision := ⟨.permit, reasons⟩

structure EvaluationSnapshot where
  namespaces : NamespaceRegistry
  tuples : TupleIndex
  memberships : Option IndexedMemberships := none

structure Grant where
  code : String
  path : List String
deriving DecidableEq, Repr

/-- The mutable state of one walk: the visited keys, latest first, and `WalkState.truncated`. -/
structure Walk where
  visited : List String
  truncated : Bool
deriving DecidableEq, Repr

def Walk.fresh : Walk := ⟨[], false⟩

def Walk.truncate (walk : Walk) : Walk := { walk with truncated := true }

@[simp] theorem Walk.fresh_visited : Walk.fresh.visited = [] := rfl
@[simp] theorem Walk.fresh_truncated : Walk.fresh.truncated = false := rfl
@[simp] theorem Walk.truncate_visited (walk : Walk) : walk.truncate.visited = walk.visited := rfl
@[simp] theorem Walk.truncate_truncated (walk : Walk) : walk.truncate.truncated = true := rfl

/-! ## The walk -/

/-- What a recursive call of the walk ends with: a grant if there is one, and the walk so far. -/
abbrev Derived := Option (Option Grant × Walk)

/-- `indexed !== null && depth + 1 + indexed <= MAX_USERSET_DEPTH`, `depth` being the depth of
    the set asked for. -/
def indexedWithin (snapshot : EvaluationSnapshot) (object : EntityRef) (relation : String)
    (target : EntityRef) (depth : Nat) : Bool :=
  match snapshot.memberships.bind fun view => view.depthOf object relation target with
  | some indexed => depth + indexed ≤ maxUsersetDepth
  | none => false

section Derive

variable (recur : EntityRef → String → Nat → Walk → Derived) (snapshot : EvaluationSnapshot)
  (target object : EntityRef) (relation : String) (depth : Nat)

/-- The second loop of `deriveThis`, over the usersets. -/
def deriveUsersets : List SubjectRef → Walk → Derived
  | [], walk => some (none, walk)
  | .subject _ :: subjects, walk => deriveUsersets subjects walk
  | .userset ref rel :: subjects, walk =>
    if indexedWithin snapshot ref rel target (depth + 1) then
      some (some ⟨"grant.indexed_userset", [tupleKey object relation (.userset ref rel)]⟩, walk)
    else do
      let (sub, walk) ← recur ref rel (depth + 1) walk
      match sub with
      | some sub =>
        return (some ⟨"grant.userset", tupleKey object relation (.userset ref rel) :: sub.path⟩,
          walk)
      | none => deriveUsersets subjects walk

def deriveThis (walk : Walk) : Derived :=
  let subjects := snapshot.tuples.subjectsOf object relation
  if .subject target ∈ subjects then
    some (some ⟨"grant.direct", [tupleKey object relation (.subject target)]⟩, walk)
  else deriveUsersets recur snapshot target object relation depth subjects walk

/-- The loop of the `tupleToUserset` case. -/
def deriveTupleset (tupleset computed : String) : List SubjectRef → Walk → Derived
  | [], walk => some (none, walk)
  | .userset _ _ :: subjects, walk => deriveTupleset tupleset computed subjects walk
  | .subject ref :: subjects, walk => do
    let (sub, walk) ← recur ref computed (depth + 1) walk
    match sub with
    | some sub =>
      return (some ⟨"grant.tuple_to_userset",
        tupleKey object tupleset (.subject ref) :: sub.path⟩, walk)
    | none => deriveTupleset tupleset computed subjects walk

mutual
def deriveRewrite : Userset → Walk → Derived
  | .this, walk => deriveThis recur snapshot target object relation depth walk
  | .computedUserset rel, walk => do
    let (sub, walk) ← recur object rel depth walk
    return (sub.map fun g => ⟨"grant.computed_userset", g.path⟩, walk)
  | .tupleToUserset tupleset computed, walk =>
    deriveTupleset recur object depth tupleset computed
      (snapshot.tuples.subjectsOf object tupleset) walk
  | .union children, walk => deriveUnion children walk
  | .intersection children, walk => deriveIntersection children [] walk
  | .exclusion base subtract, walk => do
    let (base, baseWalk) ← deriveRewrite base Walk.fresh
    if baseWalk.truncated then return (none, walk.truncate)
    match base with
    | none => return (none, walk)
    | some base => do
      let (subtract, subtractWalk) ← deriveRewrite subtract Walk.fresh
      if subtractWalk.truncated then return (none, walk.truncate)
      match subtract with
      | some _ => return (none, walk)
      | none => return (some ⟨"grant.exclusion", base.path⟩, walk)
/-- The loop of the `union` case. -/
def deriveUnion : List Userset → Walk → Derived
  | [], walk => some (none, walk)
  | child :: children, walk => do
    let (grant, walk) ← deriveRewrite child walk
    match grant with
    | some grant => return (some grant, walk)
    | none => deriveUnion children walk
/-- The loop of the `intersection` case, with the path so far. -/
def deriveIntersection : List Userset → List String → Walk → Derived
  | [], path, walk => some (some ⟨"grant.intersection", path⟩, walk)
  | child :: children, path, walk => do
    let (grant, childWalk) ← deriveRewrite child Walk.fresh
    if childWalk.truncated then return (none, walk.truncate)
    match grant with
    | none => return (none, walk)
    | some grant => deriveIntersection children (path ++ grant.path) walk
end

end Derive

/-- `derive`, on fuel. -/
def deriveFuel (snapshot : EvaluationSnapshot) (target : EntityRef) :
    Nat → EntityRef → String → Nat → Walk → Derived
  | 0, _, _, _, _ => none
  | fuel + 1, object, relation, depth, walk =>
    if maxUsersetDepth < depth then some (none, walk.truncate)
    else if nodeKey object relation ∈ walk.visited then some (none, walk)
    else
      deriveRewrite (deriveFuel snapshot target fuel) snapshot target object relation depth
        (snapshot.namespaces.rewritesFor object.type relation)
        { walk with visited := nodeKey object relation :: walk.visited }

/-! ## Fuel -/

/-- Fuel that suffices from a node of rank `rank` met at `depth`. -/
def fuelFor (namespaces : NamespaceRegistry) (type relation : String) (depth : Nat) : Nat :=
  (maxUsersetDepth + 1 - depth) * (namespaces.chainBound + 1) +
    namespaces.rank type relation + 1

/-- Fuel that suffices from any node at any depth. -/
def walkFuel (namespaces : NamespaceRegistry) : Nat :=
  (maxUsersetDepth + 2) * (namespaces.chainBound + 1)

theorem fuelFor_le (namespaces : NamespaceRegistry) (type relation : String) (depth : Nat) :
    fuelFor namespaces type relation depth ≤ walkFuel namespaces := by
  have hr := namespaces.rank_le type relation
  have hm : (maxUsersetDepth + 1 - depth) * (namespaces.chainBound + 1) ≤
      (maxUsersetDepth + 1) * (namespaces.chainBound + 1) :=
    Nat.mul_le_mul_right _ (Nat.sub_le _ _)
  unfold fuelFor walkFuel
  rw [show maxUsersetDepth + 2 = maxUsersetDepth + 1 + 1 from rfl, Nat.succ_mul]
  omega

/-- A step that spends depth leaves enough fuel, wherever it leads. -/
theorem fuelFor_deeper (namespaces : NamespaceRegistry) (type relation : String) {depth : Nat}
    (hd : depth ≤ maxUsersetDepth) (type' relation' : String) :
    fuelFor namespaces type' relation' (depth + 1) < fuelFor namespaces type relation depth := by
  have hr := namespaces.rank_le type' relation'
  have hs : maxUsersetDepth + 1 - depth = (maxUsersetDepth + 1 - (depth + 1)) + 1 := by omega
  unfold fuelFor
  rw [hs, Nat.succ_mul]
  omega

/-- A computed userset leaves enough fuel at the same depth. -/
theorem fuelFor_computed (namespaces : NamespaceRegistry) {type relation relation' : String}
    (depth : Nat) (h : relation' ∈ computedUsersetTargets (namespaces.rewritesFor type relation)) :
    fuelFor namespaces type relation' depth < fuelFor namespaces type relation depth := by
  have := namespaces.rank_lt h
  unfold fuelFor
  omega

section Total

variable {recur : EntityRef → String → Nat → Walk → Derived} {snapshot : EvaluationSnapshot}
  {target object : EntityRef} {relation : String} {depth : Nat}

theorem deriveUsersets_isSome
    (hdeep : ∀ ref rel walk, (recur ref rel (depth + 1) walk).isSome) :
    ∀ (subjects : List SubjectRef) (walk : Walk),
      (deriveUsersets recur snapshot target object relation depth subjects walk).isSome := by
  intro subjects
  induction subjects with
  | nil => intro walk; rfl
  | cons s ss ih =>
    intro walk
    cases s with
    | subject ref => exact ih walk
    | userset ref rel =>
      rw [deriveUsersets]
      split_ifs
      · rfl
      · obtain ⟨⟨sub, walk'⟩, h⟩ := Option.isSome_iff_exists.mp (hdeep ref rel walk)
        cases sub with
        | some g => simp [h]
        | none => simpa [h] using ih walk'

theorem deriveTupleset_isSome {tupleset computed : String}
    (hdeep : ∀ ref rel walk, (recur ref rel (depth + 1) walk).isSome) :
    ∀ (subjects : List SubjectRef) (walk : Walk),
      (deriveTupleset recur object depth tupleset computed subjects walk).isSome := by
  intro subjects
  induction subjects with
  | nil => intro walk; rfl
  | cons s ss ih =>
    intro walk
    cases s with
    | userset ref rel => exact ih walk
    | subject ref =>
      obtain ⟨⟨sub, walk'⟩, h⟩ := Option.isSome_iff_exists.mp (hdeep ref computed walk)
      cases sub with
      | some g => simp [deriveTupleset, h]
      | none => simpa [deriveTupleset, h] using ih walk'

theorem deriveUnion_isSome {children : List Userset}
    (h : ∀ c ∈ children, ∀ walk,
      (deriveRewrite recur snapshot target object relation depth c walk).isSome) :
    ∀ walk, (deriveUnion recur snapshot target object relation depth children walk).isSome := by
  induction children with
  | nil => intro walk; rfl
  | cons c cs ih =>
    intro walk
    obtain ⟨⟨grant, walk'⟩, hc⟩ := Option.isSome_iff_exists.mp (h c (List.mem_cons_self ..) walk)
    cases grant with
    | some g => simp [deriveUnion, hc]
    | none => simpa [deriveUnion, hc] using ih (fun d hd => h d (by simp [hd])) walk'

theorem deriveIntersection_isSome {children : List Userset}
    (h : ∀ c ∈ children, ∀ walk,
      (deriveRewrite recur snapshot target object relation depth c walk).isSome) :
    ∀ path walk,
      (deriveIntersection recur snapshot target object relation depth children path
        walk).isSome := by
  induction children with
  | nil => intro path walk; rfl
  | cons c cs ih =>
    intro path walk
    obtain ⟨⟨grant, walk'⟩, hc⟩ := Option.isSome_iff_exists.mp
      (h c (List.mem_cons_self ..) Walk.fresh)
    by_cases ht : walk'.truncated = true
    · simp [deriveIntersection, hc, ht]
    · cases grant with
      | none => simp [deriveIntersection, hc, ht]
      | some g =>
        simpa [deriveIntersection, hc, ht] using
          ih (fun d hd => h d (by simp [hd])) (path ++ g.path) walk

/-- One rewrite tree is evaluated to the end when every call it can make is. -/
theorem deriveRewrite_isSome
    (hdeep : ∀ ref rel walk, (recur ref rel (depth + 1) walk).isSome) (rewrite : Userset) :
    (∀ rel ∈ computedUsersetTargets rewrite, ∀ walk, (recur object rel depth walk).isSome) →
      ∀ walk, (deriveRewrite recur snapshot target object relation depth rewrite walk).isSome := by
  induction rewrite with
  | this =>
    intro _ walk
    rw [deriveRewrite, deriveThis]
    split
    · rfl
    · exact deriveUsersets_isSome hdeep _ _
  | computedUserset rel =>
    intro hsame walk
    obtain ⟨⟨sub, walk'⟩, h⟩ := Option.isSome_iff_exists.mp
      (hsame rel (by simp [computedUsersetTargets]) walk)
    simp [deriveRewrite, h]
  | tupleToUserset tupleset computed =>
    intro _ walk
    rw [deriveRewrite]
    exact deriveTupleset_isSome hdeep _ _
  | union children ih =>
    intro hsame walk
    rw [deriveRewrite]
    refine deriveUnion_isSome (fun c hc => ih c hc fun rel hr => hsame rel ?_) walk
    rw [computedUsersetTargets]
    exact mem_computedUsersetTargetsOf.mpr ⟨c, hc, hr⟩
  | intersection children ih =>
    intro hsame walk
    rw [deriveRewrite]
    refine deriveIntersection_isSome (fun c hc => ih c hc fun rel hr => hsame rel ?_) [] walk
    rw [computedUsersetTargets]
    exact mem_computedUsersetTargetsOf.mpr ⟨c, hc, hr⟩
  | exclusion base subtract ihb ihs =>
    intro hsame walk
    obtain ⟨⟨b, bw⟩, hb⟩ := Option.isSome_iff_exists.mp
      (ihb (fun rel hr => hsame rel (by simp [computedUsersetTargets, hr])) Walk.fresh)
    obtain ⟨⟨s, sw⟩, hs⟩ := Option.isSome_iff_exists.mp
      (ihs (fun rel hr => hsame rel (by simp [computedUsersetTargets, hr])) Walk.fresh)
    by_cases hbt : bw.truncated = true
    · simp [deriveRewrite, hb, hbt]
    · cases b with
      | none => simp [deriveRewrite, hb, hbt]
      | some b =>
        by_cases hst : sw.truncated = true
        · simp [deriveRewrite, hb, hbt, hs, hst]
        · cases s <;> simp [deriveRewrite, hb, hbt, hs, hst]

end Total

/-- **The walk terminates.**  `fuelFor` a node is enough fuel for it. -/
theorem deriveFuel_isSome {snapshot : EvaluationSnapshot} {target : EntityRef} {fuel : Nat} :
    ∀ {object : EntityRef} {relation : String} {depth : Nat} (walk : Walk),
      fuelFor snapshot.namespaces object.type relation depth ≤ fuel →
      (deriveFuel snapshot target fuel object relation depth walk).isSome := by
  induction fuel with
  | zero => intro object relation depth walk h; simp [fuelFor] at h
  | succ fuel ih =>
    intro object relation depth walk h
    rw [deriveFuel]
    split_ifs with hd
    · rfl
    · rfl
    · refine deriveRewrite_isSome (fun ref rel w => ih w ?_) _ (fun rel hr w => ih w ?_) _
      · have := fuelFor_deeper snapshot.namespaces object.type relation (Nat.not_lt.mp hd)
          ref.type rel
        omega
      · have := fuelFor_computed snapshot.namespaces depth hr
        omega

/-- `derive`. -/
def derive (snapshot : EvaluationSnapshot) (target object : EntityRef) (relation : String)
    (depth : Nat) (walk : Walk) : Option Grant × Walk :=
  (deriveFuel snapshot target (walkFuel snapshot.namespaces) object relation depth walk).get
    (deriveFuel_isSome walk (fuelFor_le _ _ _ _))

theorem deriveFuel_derive (snapshot : EvaluationSnapshot) (target object : EntityRef)
    (relation : String) (depth : Nat) (walk : Walk) :
    deriveFuel snapshot target (walkFuel snapshot.namespaces) object relation depth walk =
      some (derive snapshot target object relation depth walk) :=
  (Option.some_get _).symm

/-! ## Evaluation -/

/-- The decision when no required relation is granted. -/
def defaultDeny (truncated : Bool) : Decision :=
  deny (⟨"default_deny", "No grant path resolved; denied by default.", none, none⟩ ::
    if truncated then
      [⟨"walk_truncated", "Traversal stopped at the depth bound (" ++ toString maxUsersetDepth ++
        "); a deeper relationship may exist.", none, none⟩]
    else [])

/-- The loop over the required relations: a fresh visited set each, one shared flag. -/
def evaluateRequired (query : AuthorizationQuery) (snapshot : EvaluationSnapshot) :
    List String → Bool → Decision
  | [], truncated => defaultDeny truncated
  | relation :: required, truncated =>
    match derive snapshot query.subject query.resource relation 0 ⟨[], truncated⟩ with
    | (some grant, _) =>
      permit [⟨grant.code, "Subject " ++ formatEntityRef query.subject ++ " holds " ++ relation ++
        " on " ++ formatEntityRef query.resource ++ ".", some relation, some grant.path⟩]
    | (none, walk) => evaluateRequired query snapshot required walk.truncated

/-- The relations an action of the query's resource type is bound to. -/
def requiredRelations (query : AuthorizationQuery) (namespaces : NamespaceRegistry) :
    List String :=
  match namespaces.get query.resource.type with
  | some definition => definition.requiredRelationsFor query.action
  | none => []

def evaluate (query : AuthorizationQuery) (snapshot : EvaluationSnapshot) : Decision :=
  if snapshot.tuples.orgId ≠ query.orgId then
    deny [⟨"org_mismatch", "Tuple snapshot belongs to a different organization.", none, none⟩]
  else if snapshot.namespaces.all.any fun definition => definition.orgId ≠ query.orgId then
    deny [⟨"org_mismatch", "Namespace definition belongs to a different organization.",
      none, none⟩]
  else
    let required := requiredRelations query snapshot.namespaces
    if required.isEmpty then
      deny [⟨"unknown_action", "No relation is bound to action " ++ query.action.name ++ ".",
        none, none⟩]
    else evaluateRequired query snapshot required false

/-- Everything in the snapshot belongs to one organization. -/
def EvaluationSnapshot.OfOrg (snapshot : EvaluationSnapshot) (orgId : OrgId) : Prop :=
  snapshot.tuples.orgId = orgId ∧ ∀ definition ∈ snapshot.namespaces.all, definition.orgId = orgId

theorem evaluate_of_mismatch {query : AuthorizationQuery} {snapshot : EvaluationSnapshot}
    (h : ¬ snapshot.OfOrg query.orgId) :
    (evaluate query snapshot).effect = .deny ∧
      (evaluate query snapshot).cites "org_mismatch" = true := by
  unfold evaluate
  split_ifs with ht hn
  · exact ⟨rfl, rfl⟩
  · exact ⟨rfl, rfl⟩
  all_goals
    refine absurd ⟨by simpa using ht, fun d hd => ?_⟩ h
    by_contra hne
    exact hn (List.any_eq_true.mpr ⟨d, hd, by simpa using hne⟩)

/-- Inside one organization, an action bound to no relation apart, the loop decides. -/
theorem evaluate_of_org {query : AuthorizationQuery} {snapshot : EvaluationSnapshot}
    (h : snapshot.OfOrg query.orgId) : evaluate query snapshot =
      if (requiredRelations query snapshot.namespaces).isEmpty then
        deny [⟨"unknown_action", "No relation is bound to action " ++ query.action.name ++ ".",
          none, none⟩]
      else evaluateRequired query snapshot (requiredRelations query snapshot.namespaces) false := by
  have hn : ¬ (snapshot.namespaces.all.any fun d => d.orgId ≠ query.orgId) = true := by
    intro hany
    obtain ⟨d, hd, hne⟩ := List.any_eq_true.mp hany
    exact absurd (h.2 d hd) (by simpa using hne)
  unfold evaluate
  rw [if_neg (by simpa using h.1), if_neg hn]

end AccessCore
