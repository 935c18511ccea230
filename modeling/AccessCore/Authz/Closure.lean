/-
  The closure loader: `PdpService.loadClosure` and the caches of an evaluation context
  (`authz/application/pdp-service.ts`).

  Before a check is evaluated, the loader walks the relationship graph from the required relations
  and fetches the rows and the namespace definitions the evaluation will read.  It marks a node at
  the depth it first meets it and never comes back to it.

  A context is opened inside one transaction, so its caches hold readings of one database state
  (`Memo`): reading through them is reading the state, also when several checks share a context and
  although the keys are text.  The closure carries the same facts about what it has collected.

  The crux is `closureOf_marks` in `Loading`: the nodes the loader walks are the depth-first marking
  of the plan graph of the complete snapshot, and at every marked node the closure has all that the
  complete snapshot has.
-/
import AccessCore.Lib.Memo
import AccessCore.Lib.Marking
import AccessCore.Authz.Rules
import AccessCore.Authz.Store

namespace AccessCore

/-! ## What a check reads of the store -/

namespace Database

variable {dateParse : String → Option Int} (db : Database dateParse) (orgId : OrgId)

/-- The index view of a member: the hits whose set is stamped at the organization's version or
    later. -/
def indexedView (member : EntityRef) : IndexedMemberships :=
  let hits := db.membershipsOf orgId member
  if 0 < hits.length then
    let version := db.organizationVersion orgId
    IndexedMemberships.of member
      ((hits.filter fun hit => hit.validAtRevision.isAtLeast version).map fun hit =>
        ⟨hit.set.object, hit.set.relation, hit.depth⟩)
  else IndexedMemberships.none

/-- The snapshot with all the tuples and namespaces of an organization. -/
def complete (memberships : Option IndexedMemberships) : EvaluationSnapshot :=
  ⟨db.registry orgId, TupleIndex.of orgId (db.tuplesOf orgId), memberships⟩

end Database

/-! ## Keys lose nothing that matters -/

/-- The keys of the caches of a context. -/
def contextKey (orgId : OrgId) (text : String) : String := orgId.value ++ ":" ++ text

theorem contextKey_inj {a b : OrgId} {s t : String} (h : contextKey a s = contextKey b t) :
    a = b ∧ s = t := by
  have hl := congrArg String.toList h
  have hsplit : ∀ (o : OrgId) (u : String), splitAtFirst ':' (contextKey o u).toList =
      some (o.value.toList, u.toList) := by
    intro o u
    have htext : (contextKey o u).toList = o.value.toList ++ ':' :: u.toList := by
      simp [contextKey]
    rw [htext, splitAtFirst_append o.uuid]
  have hpair := (hsplit a s).symm.trans ((congrArg (splitAtFirst ':') hl).trans (hsplit b t))
  obtain ⟨ho, ht⟩ := Prod.mk.inj (Option.some.inj hpair)
  refine ⟨?_, String.toList_inj.mp ht⟩
  cases a
  cases b
  simpa [String.toList_inj] using ho

section Faithful

open Memo (Faithful)

variable {dateParse : String → Option Int} {db : Database dateParse} {orgId : OrgId}

/-- Nodes with one key have the same rows: a node with rows is writable. -/
theorem faithful_rows :
    Faithful Node.key fun q : Node => db.listByObject orgId q.1 q.2 := by
  intro q q' hk
  by_cases h : db.listByObject orgId q.1 q.2 = []
  · by_cases h' : db.listByObject orgId q'.1 q'.2 = []
    · show db.listByObject orgId q.1 q.2 = db.listByObject orgId q'.1 q'.2
      rw [h, h']
    · obtain ⟨ho, hr⟩ := nodeKey_inj (Database.listByObject_writable h') hk.symm
      rw [Prod.ext ho hr]
  · obtain ⟨ho, hr⟩ := nodeKey_inj (Database.listByObject_writable h) hk
    rw [Prod.ext ho hr]

/-- Members with one text have the same view: a member with hits is writable. -/
theorem faithful_view : Faithful formatEntityRef (db.indexedView orgId) := by
  intro m m' hk
  by_cases h : db.membershipsOf orgId m = []
  · by_cases h' : db.membershipsOf orgId m' = []
    · simp [Database.indexedView, h, h']
    · rw [formatEntityRef_inj (Database.membershipsOf_writable h') hk.symm]
  · rw [formatEntityRef_inj (Database.membershipsOf_writable h) hk]

theorem faithful_cachedNamespace : Faithful (fun q : OrgId × String => contextKey q.1 q.2)
    fun q => db.findByNamespace q.1 q.2 := by
  intro q q' hk
  obtain ⟨ho, ht⟩ := contextKey_inj hk
  rw [Prod.ext ho ht]

theorem faithful_cachedRows : Faithful (fun q : OrgId × Node => contextKey q.1 q.2.key)
    fun q => db.listByObject q.1 q.2.1 q.2.2 := by
  rintro ⟨o, n⟩ ⟨o', n'⟩ hk
  obtain ⟨rfl, hn⟩ := contextKey_inj hk
  exact faithful_rows n n' hn

theorem faithful_cachedView :
    Faithful (fun q : OrgId × EntityRef => contextKey q.1 (formatEntityRef q.2))
      fun q => db.indexedView q.1 q.2 := by
  rintro ⟨o, m⟩ ⟨o', m'⟩ hk
  obtain ⟨rfl, hm⟩ := contextKey_inj hk
  exact faithful_view m m' hm

end Faithful

/-! ## Contexts and closures -/

/-- The caches of one transaction. -/
structure EvaluationContext {dateParse : String → Option Int} (db : Database dateParse) where
  revisionUsed : Revision
  namespaces : Memo (fun q : OrgId × String => contextKey q.1 q.2) fun q =>
    db.findByNamespace q.1 q.2
  tuples : Memo (fun q : OrgId × Node => contextKey q.1 q.2.key) fun q =>
    db.listByObject q.1 q.2.1 q.2.2
  memberships : Memo (fun q : OrgId × EntityRef => contextKey q.1 (formatEntityRef q.2)) fun q =>
    db.indexedView q.1 q.2

/-- The local state of `loadClosure`, with the context it reads through.  `rows` is `local`. -/
structure Closure {dateParse : String → Option Int} (db : Database dateParse) (orgId : OrgId)
    (member : Option EntityRef) where
  context : EvaluationContext db
  rows : Memo Node.key fun q : Node => db.listByObject orgId q.1 q.2
  walked : List String
  reached : OrderedMap String NamespaceDefinition
  memberships : Option IndexedMemberships
  reachedKeyed : (reached.map (·.1)).Nodup
  reachedFound : ∀ e ∈ reached, db.findByNamespace orgId e.1 = some e.2
  viewed : memberships = none ∨ memberships = member.map (db.indexedView orgId)

variable {dateParse : String → Option Int} {db : Database dateParse} {orgId : OrgId}
  {member : Option EntityRef}

namespace EvaluationContext

/-- `openContext`. -/
def opened (db : Database dateParse) : EvaluationContext db :=
  ⟨db.current, Memo.empty, Memo.empty, Memo.empty⟩

def cachedNamespace (context : EvaluationContext db) (orgId : OrgId) (type : String) :
    Option NamespaceDefinition × EvaluationContext db :=
  let found := context.namespaces.fetch (orgId, type)
  (found.1, { context with namespaces := found.2 })

def cachedRows (context : EvaluationContext db) (orgId : OrgId) (n : Node) :
    List RelationTuple × EvaluationContext db :=
  let loaded := context.tuples.fetch (orgId, n)
  (loaded.1, { context with tuples := loaded.2 })

def indexedMemberships (context : EvaluationContext db) (orgId : OrgId) (member : EntityRef) :
    IndexedMemberships × EvaluationContext db :=
  let view := context.memberships.fetch (orgId, member)
  (view.1, { context with memberships := view.2 })

theorem cachedNamespace_fst (context : EvaluationContext db) (orgId : OrgId) (type : String) :
    (context.cachedNamespace orgId type).1 = db.findByNamespace orgId type :=
  Memo.fetch_fst faithful_cachedNamespace

theorem cachedRows_fst (context : EvaluationContext db) (orgId : OrgId) (n : Node) :
    (context.cachedRows orgId n).1 = db.listByObject orgId n.1 n.2 :=
  Memo.fetch_fst faithful_cachedRows

theorem indexedMemberships_fst (context : EvaluationContext db) (orgId : OrgId)
    (member : EntityRef) : (context.indexedMemberships orgId member).1 =
    db.indexedView orgId member :=
  Memo.fetch_fst faithful_cachedView

end EvaluationContext

namespace Closure

def opened (context : EvaluationContext db) : Closure db orgId member :=
  ⟨context, Memo.empty, [], [], none, List.nodup_nil, fun _ he => absurd he List.not_mem_nil,
    Or.inl rfl⟩

/-- `reached.set(type, namespace)`. -/
def reach (closure : Closure db orgId member) (type : String) (definition : NamespaceDefinition)
    (h : db.findByNamespace orgId type = some definition) : Closure db orgId member :=
  { closure with
    reached := OrderedMap.set closure.reached type definition
    reachedKeyed := OrderedMap.nodup_set closure.reachedKeyed _ _
    reachedFound := by
      intro e he
      rcases OrderedMap.mem_set he with he | rfl
      · exact closure.reachedFound e he
      · exact h }

def namespaceOf (closure : Closure db orgId member) (type : String) :
    Option NamespaceDefinition × Closure db orgId member :=
  let found := closure.context.cachedNamespace orgId type
  match h : found.1 with
  | some definition =>
    (some definition, reach { closure with context := found.2 } type definition
      ((closure.context.cachedNamespace_fst orgId type).symm.trans h))
  | none => (none, { closure with context := found.2 })

def rowsOf (closure : Closure db orgId member) (object : EntityRef) (relation : String) :
    List RelationTuple × Closure db orgId member :=
  match closure.rows.lookup (object, relation) with
  | some localHit => (localHit, closure)
  | none =>
    let loaded := closure.context.cachedRows orgId (object, relation)
    (loaded.1, { closure with
      context := loaded.2
      rows := closure.rows.store (object, relation) loaded.1
        (closure.context.cachedRows_fst orgId (object, relation)) })

/-- `memberships ??= await this.indexedMemberships(orgId, member, context)`. -/
def indexedMemberships {member : EntityRef} (closure : Closure db orgId (some member)) :
    IndexedMemberships × Closure db orgId (some member) :=
  match closure.memberships with
  | some memberships => (memberships, closure)
  | none =>
    let view := closure.context.indexedMemberships orgId member
    (view.1, { closure with
      context := view.2
      memberships := some view.1
      viewed := Or.inr (congrArg some (closure.context.indexedMemberships_fst orgId member)) })

def indexedGrant (set : EntityRef) (relation : String) (depth : Nat) :
    {member : Option EntityRef} → Closure db orgId member → Bool × Closure db orgId member
  | none, closure => (false, closure)
  | some member, closure =>
    let memberships := closure.indexedMemberships
    (match memberships.1.depthOf set relation member with
      | some indexed => depth + indexed ≤ maxUsersetDepth
      | none => false, memberships.2)

/-! ## The walk -/

section Walk

variable (recur : EntityRef → String → Nat → Closure db orgId member →
  Option (Closure db orgId member)) (depth : Nat)

/-- The loop of the `this` case. -/
def walkUsersets : List RelationTuple → Closure db orgId member → Option (Closure db orgId member)
  | [], closure => some closure
  | tuple :: tuples, closure =>
    match tuple.subject with
    | .subject _ => walkUsersets tuples closure
    | .userset ref relation =>
      let granted := closure.indexedGrant ref relation (depth + 1)
      if granted.1 then walkUsersets tuples granted.2
      else do
        let closure ← recur ref relation (depth + 1) granted.2
        walkUsersets tuples closure

/-- The loop of the `tupleToUserset` case. -/
def walkTupleset (computed : String) :
    List RelationTuple → Closure db orgId member → Option (Closure db orgId member)
  | [], closure => some closure
  | tuple :: tuples, closure =>
    match tuple.subject with
    | .userset _ _ => walkTupleset computed tuples closure
    | .subject ref => do
      let closure ← recur ref computed (depth + 1) closure
      walkTupleset computed tuples closure

mutual
def walkRewrite (object : EntityRef) (node : List RelationTuple) :
    Userset → Closure db orgId member → Option (Closure db orgId member)
  | .this, closure => walkUsersets recur depth node closure
  | .computedUserset relation, closure => recur object relation depth closure
  | .tupleToUserset tupleset computed, closure =>
    let rows := closure.rowsOf object tupleset
    walkTupleset recur depth computed rows.1 rows.2
  | .union children, closure => walkChildren object node children closure
  | .intersection children, closure => walkChildren object node children closure
  | .exclusion base subtract, closure => do
    let closure ← walkRewrite object node base closure
    walkRewrite object node subtract closure
/-- The loop over the children of a union or an intersection. -/
def walkChildren (object : EntityRef) (node : List RelationTuple) :
    List Userset → Closure db orgId member → Option (Closure db orgId member)
  | [], closure => some closure
  | child :: children, closure => do
    let closure ← walkRewrite object node child closure
    walkChildren object node children closure
end

end Walk

/-- `walk`, on fuel. -/
def walkFuel : Nat → EntityRef → String → Nat → Closure db orgId member →
    Option (Closure db orgId member)
  | 0, _, _, _, _ => none
  | fuel + 1, object, relation, depth, closure =>
    if nodeKey object relation ∈ closure.walked ∨ maxUsersetDepth < depth then some closure
    else
      let node := Closure.rowsOf
        { closure with walked := nodeKey object relation :: closure.walked } object relation
      let namespace_ := node.2.namespaceOf object.type
      let rewrite := match namespace_.1 with
        | some definition => definition.config.rewritesFor relation
        | none => directUserset
      walkRewrite (walkFuel fuel) depth object node.1 rewrite namespace_.2

/-! ## Reading through the caches is reading the store -/

theorem namespaceOf_fst (closure : Closure db orgId member) (type : String) :
    (closure.namespaceOf type).1 = db.findByNamespace orgId type := by
  rw [← closure.context.cachedNamespace_fst orgId type]
  unfold namespaceOf
  dsimp only
  split
  · next h => exact h.symm
  · next h => exact h.symm

theorem rowsOf_fst (closure : Closure db orgId member) (object : EntityRef) (relation : String) :
    (closure.rowsOf object relation).1 = db.listByObject orgId object relation := by
  unfold rowsOf
  split
  · next rows h => exact Memo.lookup_eq faithful_rows h
  · exact closure.context.cachedRows_fst orgId (object, relation)

theorem indexedMemberships_fst {member : EntityRef} (closure : Closure db orgId (some member)) :
    closure.indexedMemberships.1 = db.indexedView orgId member := by
  unfold indexedMemberships
  split
  · next view h =>
    rcases closure.viewed with hv | hv
    · rw [h] at hv
      cases hv
    · rw [h] at hv
      exact Option.some.inj hv
  · exact closure.context.indexedMemberships_fst orgId member

/-! ## The walk terminates -/

section Total

variable {recur : EntityRef → String → Nat → Closure db orgId member →
  Option (Closure db orgId member)} {depth : Nat}

theorem walkUsersets_isSome
    (hdeep : ∀ ref rel closure, (recur ref rel (depth + 1) closure).isSome) :
    ∀ (tuples : List RelationTuple) (closure : Closure db orgId member),
      (walkUsersets recur depth tuples closure).isSome := by
  intro tuples
  induction tuples with
  | nil => intro closure; rfl
  | cons tuple tuples ih =>
    intro closure
    rw [walkUsersets]
    cases tuple.subject with
    | subject ref => exact ih closure
    | userset ref relation =>
      dsimp only
      split_ifs
      · exact ih _
      · obtain ⟨closure', h⟩ := Option.isSome_iff_exists.mp
          (hdeep ref relation (closure.indexedGrant ref relation (depth + 1)).2)
        simpa [h] using ih closure'

theorem walkTupleset_isSome {computed : String}
    (hdeep : ∀ ref rel closure, (recur ref rel (depth + 1) closure).isSome) :
    ∀ (tuples : List RelationTuple) (closure : Closure db orgId member),
      (walkTupleset recur depth computed tuples closure).isSome := by
  intro tuples
  induction tuples with
  | nil => intro closure; rfl
  | cons tuple tuples ih =>
    intro closure
    rw [walkTupleset]
    cases tuple.subject with
    | userset ref relation => exact ih closure
    | subject ref =>
      obtain ⟨closure', h⟩ := Option.isSome_iff_exists.mp (hdeep ref computed closure)
      simpa [h] using ih closure'

theorem walkChildren_isSome {object : EntityRef} {node : List RelationTuple}
    {children : List Userset}
    (h : ∀ c ∈ children, ∀ closure : Closure db orgId member,
      (walkRewrite recur depth object node c closure).isSome) :
    ∀ closure, (walkChildren recur depth object node children closure).isSome := by
  induction children with
  | nil => intro closure; rfl
  | cons c cs ih =>
    intro closure
    obtain ⟨closure', hc⟩ := Option.isSome_iff_exists.mp (h c (List.mem_cons_self ..) closure)
    simpa [walkChildren, hc] using ih (fun d hd => h d (by simp [hd])) closure'

theorem walkRewrite_isSome {object : EntityRef} {node : List RelationTuple}
    (hdeep : ∀ ref rel closure, (recur ref rel (depth + 1) closure).isSome) (rewrite : Userset) :
    (∀ rel ∈ computedUsersetTargets rewrite, ∀ closure, (recur object rel depth closure).isSome) →
      ∀ closure : Closure db orgId member,
        (walkRewrite recur depth object node rewrite closure).isSome := by
  induction rewrite with
  | this => intro _ closure; exact walkUsersets_isSome hdeep _ _
  | computedUserset rel =>
    intro hsame closure
    exact hsame rel (by simp [computedUsersetTargets]) closure
  | tupleToUserset tupleset computed => intro _ closure; exact walkTupleset_isSome hdeep _ _
  | union children ih =>
    intro hsame closure
    rw [walkRewrite]
    refine walkChildren_isSome (fun c hc => ih c hc fun rel hr => hsame rel ?_) closure
    rw [computedUsersetTargets]
    exact mem_computedUsersetTargetsOf.mpr ⟨c, hc, hr⟩
  | intersection children ih =>
    intro hsame closure
    rw [walkRewrite]
    refine walkChildren_isSome (fun c hc => ih c hc fun rel hr => hsame rel ?_) closure
    rw [computedUsersetTargets]
    exact mem_computedUsersetTargetsOf.mpr ⟨c, hc, hr⟩
  | exclusion base subtract ihb ihs =>
    intro hsame closure
    obtain ⟨closure', hb⟩ := Option.isSome_iff_exists.mp
      (ihb (fun rel hr => hsame rel (by simp [computedUsersetTargets, hr])) closure)
    have hs := ihs (fun rel hr => hsame rel (by simp [computedUsersetTargets, hr])) closure'
    simpa [walkRewrite, hb] using hs

end Total

/-- The tree the loader walks at a node is the one the registry gives. -/
theorem loaded_rewrite (closure : Closure db orgId member) (type relation : String) :
    (match (closure.namespaceOf type).1 with
      | some definition => definition.config.rewritesFor relation
      | none => directUserset) = (db.registry orgId).rewritesFor type relation := by
  rw [namespaceOf_fst, ← Database.registry_get]
  rfl

/-- **The loader terminates.**  It needs no more fuel than the check walk. -/
theorem walkFuel_isSome {fuel : Nat} : ∀ {object : EntityRef} {relation : String} {depth : Nat}
    (closure : Closure db orgId member),
    fuelFor (db.registry orgId) object.type relation depth ≤ fuel →
      (walkFuel fuel object relation depth closure).isSome := by
  induction fuel with
  | zero => intro object relation depth closure h; simp [fuelFor] at h
  | succ fuel ih =>
    intro object relation depth closure h
    rw [walkFuel]
    split_ifs with hd
    · rfl
    · have hdepth : depth ≤ maxUsersetDepth := by
        have hnot := (not_or.mp hd).2
        omega
      simp only [loaded_rewrite]
      refine walkRewrite_isSome (fun ref rel c => ih c ?_) _ (fun rel hr c => ih c ?_) _
      · have := fuelFor_deeper (db.registry orgId) object.type relation hdepth ref.type rel
        omega
      · have := fuelFor_computed (db.registry orgId) depth hr
        omega

/-- `walk`. -/
def walk (object : EntityRef) (relation : String) (depth : Nat)
    (closure : Closure db orgId member) : Closure db orgId member :=
  (walkFuel (AccessCore.walkFuel (db.registry orgId)) object relation depth closure).get
    (walkFuel_isSome closure (fuelFor_le _ _ _ _))

theorem walkFuel_walk (object : EntityRef) (relation : String) (depth : Nat)
    (closure : Closure db orgId member) :
    walkFuel (AccessCore.walkFuel (db.registry orgId)) object relation depth closure =
      some (walk object relation depth closure) :=
  (Option.some_get _).symm

/-- The snapshot a closure is returned as. -/
def snapshot (closure : Closure db orgId member) : EvaluationSnapshot where
  namespaces := NamespaceRegistry.of (closure.reached.map (·.2))
  tuples := TupleIndex.of orgId (closure.rows.entries.map (·.2)).flatten
  memberships := closure.memberships

end Closure

/-- **The three walks terminate**, whatever the tuples, the starting node and the starting depth:
one amount of fuel, read off the namespaces, is enough for all of them, and so is any larger. -/
theorem walks_terminate (snapshot : EvaluationSnapshot) {dateParse : String → Option Int}
    (db : Database dateParse) (orgId : OrgId) (member : Option EntityRef) :
    ∃ enough : Nat, ∀ (extra : Nat) (object : EntityRef) (relation : String) (depth : Nat),
      (∀ target walk,
        (deriveFuel snapshot target (enough + extra) object relation depth walk).isSome) ∧
      (∀ state, (collectFuel snapshot (enough + extra) object relation depth state).isSome) ∧
      (∀ closure : Closure db orgId member,
        (Closure.walkFuel (enough + extra) object relation depth closure).isSome) := by
  refine ⟨walkFuel snapshot.namespaces + walkFuel (db.registry orgId), ?_⟩
  intro extra object relation depth
  have hsnapshot := fuelFor_le snapshot.namespaces object.type relation depth
  have hstore := fuelFor_le (db.registry orgId) object.type relation depth
  refine ⟨?_, ?_, ?_⟩
  · intro target walk
    exact deriveFuel_isSome walk (by omega)
  · intro state
    exact collectFuel_isSome state (by omega)
  · intro closure
    exact Closure.walkFuel_isSome closure (by omega)

/-- The state of `loadClosure` when it returns. -/
def closureOf (orgId : OrgId) (resource : EntityRef) (relations : List String)
    (member : Option EntityRef) (context : EvaluationContext db) : Closure db orgId member :=
  relations.foldl (fun closure relation => closure.walk resource relation 0)
    ((Closure.opened context).namespaceOf resource.type).2

/-- `loadClosure`, with the context it leaves behind. -/
def loadClosure (orgId : OrgId) (resource : EntityRef) (relations : List String)
    (member : Option EntityRef) (context : EvaluationContext db) :
    EvaluationSnapshot × EvaluationContext db :=
  let closure := closureOf orgId resource relations member context
  (closure.snapshot, closure.context)

end AccessCore
