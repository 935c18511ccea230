/-
  The expand walk: `collectMembers`, `flattenSet` and `expand` (`authz/domain/evaluate.ts`).

  The walk has the shape of the check walk, with three differences.  It looks for nobody in
  particular and so never stops early; it does not report that the depth bound cut it; and one
  flag, shared by all operands, records that an exclusion was entered, which makes the set not
  monotonic.  Members carry the depth they were found at.

  As for the check walk, recursion is on fuel and `collectFuel_isSome` says that the fuel computed
  from the snapshot suffices.
-/
import AccessCore.Authz.Evaluate

namespace AccessCore

structure FlatMember where
  ref : EntityRef
  depth : Nat
deriving DecidableEq, Repr

/-- The mutable state of the walk: visited keys, latest first, and `CollectState.excluded`. -/
structure Collect where
  visited : List String
  excluded : Bool
deriving DecidableEq, Repr

/-- What a call of the walk ends with: the members, and the state so far. -/
abbrev Collected := Option (List FlatMember × Collect)

/-- The members of both lists, each at the larger of its two depths. -/
def meetMembers (members others : List FlatMember) : List FlatMember :=
  members.flatMap fun member =>
    match others.find? fun other => other.ref = member.ref with
    | some other => [⟨member.ref, max member.depth other.depth⟩]
    | none => []

/-- `base.filter((member) => !subtract.some(...))`. -/
def dropMembers (base subtract : List FlatMember) : List FlatMember :=
  base.filter fun member => !subtract.any fun other => other.ref = member.ref

section Collect

variable (recur : EntityRef → String → Nat → Collect → Collected) (snapshot : EvaluationSnapshot)
  (object : EntityRef) (relation : String) (depth : Nat)

/-- The loop of the `this` case. -/
def collectThis : List SubjectRef → Collect → Collected
  | [], state => some ([], state)
  | .subject ref :: subjects, state => do
    let (members, state) ← collectThis subjects state
    return (⟨ref, depth⟩ :: members, state)
  | .userset ref rel :: subjects, state => do
    let (sub, state) ← recur ref rel (depth + 1) state
    let (members, state) ← collectThis subjects state
    return (sub ++ members, state)

/-- The loop of the `tupleToUserset` case. -/
def collectTupleset (computed : String) : List SubjectRef → Collect → Collected
  | [], state => some ([], state)
  | .userset _ _ :: subjects, state => collectTupleset computed subjects state
  | .subject ref :: subjects, state => do
    let (sub, state) ← recur ref computed (depth + 1) state
    let (members, state) ← collectTupleset computed subjects state
    return (sub ++ members, state)

mutual
def collectRewrite : Userset → Collect → Collected
  | .this, state =>
    collectThis recur depth (snapshot.tuples.subjectsOf object relation) state
  | .computedUserset rel, state => recur object rel depth state
  | .tupleToUserset tupleset computed, state =>
    collectTupleset recur depth computed (snapshot.tuples.subjectsOf object tupleset) state
  | .union children, state => collectUnion children state
  | .intersection children, state => collectIntersection children none state
  | .exclusion base subtract, state => do
    let (base, baseState) ← collectRewrite base ⟨[], true⟩
    let (subtract, subtractState) ← collectRewrite subtract ⟨[], baseState.excluded⟩
    return (dropMembers base subtract, { state with excluded := subtractState.excluded })
/-- `rewrite.children.flatMap(...)`. -/
def collectUnion : List Userset → Collect → Collected
  | [], state => some ([], state)
  | child :: children, state => do
    let (sub, state) ← collectRewrite child state
    let (members, state) ← collectUnion children state
    return (sub ++ members, state)
/-- The loop of the `intersection` case; `none` until the first operand is collected. -/
def collectIntersection : List Userset → Option (List FlatMember) → Collect → Collected
  | [], members, state => some (members.getD [], state)
  | child :: children, members, state => do
    let (sub, childState) ← collectRewrite child ⟨[], state.excluded⟩
    collectIntersection children
      (some (match members with
        | none => sub
        | some members => meetMembers members sub))
      { state with excluded := childState.excluded }
end

end Collect

/-- `collectMembers`, on fuel. -/
def collectFuel (snapshot : EvaluationSnapshot) :
    Nat → EntityRef → String → Nat → Collect → Collected
  | 0, _, _, _, _ => none
  | fuel + 1, object, relation, depth, state =>
    if maxUsersetDepth < depth then some ([], state)
    else if nodeKey object relation ∈ state.visited then some ([], state)
    else
      collectRewrite (collectFuel snapshot fuel) snapshot object relation depth
        (snapshot.namespaces.rewritesFor object.type relation)
        { state with visited := nodeKey object relation :: state.visited }

/-! ## Fuel -/

section Total

variable {recur : EntityRef → String → Nat → Collect → Collected} {snapshot : EvaluationSnapshot}
  {object : EntityRef} {relation : String} {depth : Nat}

theorem collectThis_isSome (hdeep : ∀ ref rel state, (recur ref rel (depth + 1) state).isSome) :
    ∀ (subjects : List SubjectRef) (state : Collect),
      (collectThis recur depth subjects state).isSome := by
  intro subjects
  induction subjects with
  | nil => intro state; rfl
  | cons s ss ih =>
    intro state
    cases s with
    | subject ref =>
      obtain ⟨r, h⟩ := Option.isSome_iff_exists.mp (ih state)
      simp [collectThis, h]
    | userset ref rel =>
      obtain ⟨⟨sub, state'⟩, h⟩ := Option.isSome_iff_exists.mp (hdeep ref rel state)
      obtain ⟨r, h'⟩ := Option.isSome_iff_exists.mp (ih state')
      simp [collectThis, h, h']

theorem collectTupleset_isSome {computed : String}
    (hdeep : ∀ ref rel state, (recur ref rel (depth + 1) state).isSome) :
    ∀ (subjects : List SubjectRef) (state : Collect),
      (collectTupleset recur depth computed subjects state).isSome := by
  intro subjects
  induction subjects with
  | nil => intro state; rfl
  | cons s ss ih =>
    intro state
    cases s with
    | userset ref rel => exact ih state
    | subject ref =>
      obtain ⟨⟨sub, state'⟩, h⟩ := Option.isSome_iff_exists.mp (hdeep ref computed state)
      obtain ⟨r, h'⟩ := Option.isSome_iff_exists.mp (ih state')
      simp [collectTupleset, h, h']

theorem collectUnion_isSome {children : List Userset}
    (h : ∀ c ∈ children, ∀ state,
      (collectRewrite recur snapshot object relation depth c state).isSome) :
    ∀ state, (collectUnion recur snapshot object relation depth children state).isSome := by
  induction children with
  | nil => intro state; rfl
  | cons c cs ih =>
    intro state
    obtain ⟨⟨sub, state'⟩, hc⟩ := Option.isSome_iff_exists.mp (h c (List.mem_cons_self ..) state)
    obtain ⟨r, h'⟩ := Option.isSome_iff_exists.mp (ih (fun d hd => h d (by simp [hd])) state')
    simp [collectUnion, hc, h']

theorem collectIntersection_isSome {children : List Userset}
    (h : ∀ c ∈ children, ∀ state,
      (collectRewrite recur snapshot object relation depth c state).isSome) :
    ∀ members state,
      (collectIntersection recur snapshot object relation depth children members state).isSome := by
  induction children with
  | nil => intro members state; rfl
  | cons c cs ih =>
    intro members state
    obtain ⟨⟨sub, state'⟩, hc⟩ := Option.isSome_iff_exists.mp
      (h c (List.mem_cons_self ..) ⟨[], state.excluded⟩)
    simpa [collectIntersection, hc] using ih (fun d hd => h d (by simp [hd])) _ _

/-- One rewrite tree is collected to the end when every call it can make is. -/
theorem collectRewrite_isSome
    (hdeep : ∀ ref rel state, (recur ref rel (depth + 1) state).isSome) (rewrite : Userset) :
    (∀ rel ∈ computedUsersetTargets rewrite, ∀ state, (recur object rel depth state).isSome) →
      ∀ state, (collectRewrite recur snapshot object relation depth rewrite state).isSome := by
  induction rewrite with
  | this => intro _ state; exact collectThis_isSome hdeep _ _
  | computedUserset rel =>
    intro hsame state
    exact hsame rel (by simp [computedUsersetTargets]) state
  | tupleToUserset tupleset computed => intro _ state; exact collectTupleset_isSome hdeep _ _
  | union children ih =>
    intro hsame state
    rw [collectRewrite]
    refine collectUnion_isSome (fun c hc => ih c hc fun rel hr => hsame rel ?_) state
    rw [computedUsersetTargets]
    exact mem_computedUsersetTargetsOf.mpr ⟨c, hc, hr⟩
  | intersection children ih =>
    intro hsame state
    rw [collectRewrite]
    refine collectIntersection_isSome (fun c hc => ih c hc fun rel hr => hsame rel ?_) none state
    rw [computedUsersetTargets]
    exact mem_computedUsersetTargetsOf.mpr ⟨c, hc, hr⟩
  | exclusion base subtract ihb ihs =>
    intro hsame state
    obtain ⟨⟨b, bs⟩, hb⟩ := Option.isSome_iff_exists.mp
      (ihb (fun rel hr => hsame rel (by simp [computedUsersetTargets, hr])) ⟨[], true⟩)
    obtain ⟨⟨s, ss⟩, hs⟩ := Option.isSome_iff_exists.mp
      (ihs (fun rel hr => hsame rel (by simp [computedUsersetTargets, hr])) ⟨[], bs.excluded⟩)
    simp [collectRewrite, hb, hs]

end Total

/-- **The walk terminates.**  `fuelFor` a node is enough fuel for it. -/
theorem collectFuel_isSome {snapshot : EvaluationSnapshot} {fuel : Nat} :
    ∀ {object : EntityRef} {relation : String} {depth : Nat} (state : Collect),
      fuelFor snapshot.namespaces object.type relation depth ≤ fuel →
      (collectFuel snapshot fuel object relation depth state).isSome := by
  induction fuel with
  | zero => intro object relation depth state h; simp [fuelFor] at h
  | succ fuel ih =>
    intro object relation depth state h
    rw [collectFuel]
    split_ifs with hd
    · rfl
    · rfl
    · refine collectRewrite_isSome (fun ref rel w => ih w ?_) _ (fun rel hr w => ih w ?_) _
      · have := fuelFor_deeper snapshot.namespaces object.type relation (Nat.not_lt.mp hd)
          ref.type rel
        omega
      · have := fuelFor_computed snapshot.namespaces depth hr
        omega

/-- `collectMembers`. -/
def collectMembers (snapshot : EvaluationSnapshot) (object : EntityRef) (relation : String)
    (depth : Nat) (state : Collect) : List FlatMember × Collect :=
  (collectFuel snapshot (walkFuel snapshot.namespaces) object relation depth state).get
    (collectFuel_isSome state (fuelFor_le _ _ _ _))

theorem collectFuel_collectMembers (snapshot : EvaluationSnapshot) (object : EntityRef)
    (relation : String) (depth : Nat) (state : Collect) :
    collectFuel snapshot (walkFuel snapshot.namespaces) object relation depth state =
      some (collectMembers snapshot object relation depth state) :=
  (Option.some_get _).symm

/-! ## Flattening -/

structure FlattenedSet where
  members : List FlatMember
  monotonic : Bool
deriving DecidableEq, Repr

/-- One step of the loop of `flattenSet`: keep each reference once, at its smallest depth. -/
def keepShallowest (byRef : OrderedMap String FlatMember) (member : FlatMember) :
    OrderedMap String FlatMember :=
  let key := formatEntityRef member.ref
  match OrderedMap.get? byRef key with
  | none => OrderedMap.set byRef key member
  | some seen =>
    if member.depth < seen.depth then OrderedMap.set byRef key ⟨seen.ref, member.depth⟩
    else byRef

def flattenSet (object : EntityRef) (relation : String) (snapshot : EvaluationSnapshot) :
    FlattenedSet :=
  let collected := collectMembers snapshot object relation 0 ⟨[], false⟩
  ⟨(collected.1.foldl keepShallowest []).map (·.2), !collected.2.excluded⟩

def flatten (object : EntityRef) (relation : String) (snapshot : EvaluationSnapshot) :
    List FlatMember :=
  (flattenSet object relation snapshot).members

def expand (orgId : OrgId) (resource : EntityRef) (relation : String)
    (snapshot : EvaluationSnapshot) : List EntityRef :=
  if snapshot.tuples.orgId ≠ orgId then []
  else (flatten resource relation snapshot).map (·.ref)

end AccessCore
