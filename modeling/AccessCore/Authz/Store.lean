/-
  The tables of the authorization store and the repositories over them
  (`authz/infrastructure/persistence/schema.ts`, `drizzle-relation-tuple.store.ts`,
  `drizzle-relation-tuple-changelog.ts`, `drizzle-namespace-definitions.repository.ts`,
  `drizzle-policies.repository.ts`, `drizzle-membership-index.ts`,
  `db/drizzle-revisions.repository.ts`).

  A `Database` is one consistent state of the tables.  Rows are kept as the domain objects they
  are read back as: the only column that is an encoding is a tuple's subject, and
  `parseSubject_encodeSubject` says that reading it back loses nothing.  The order of a table's rows
  is the order an unordered select returns them in; an ordered select sorts by the database's
  collation, a parameter.

  Every table but the policies is keyed by organization first.  The policies are keyed by their id
  alone.
-/
import AccessCore.Lib.Table
import AccessCore.Authz.Collect
import AccessCore.Authz.Policy

namespace AccessCore

/-! ## Rows -/

inductive TupleChangeOp where
  | upsert
  | delete
deriving DecidableEq, Repr

/-- A row of `relation_tuple_changelog`; the subject is the encoded text. -/
structure TupleChange where
  orgId : OrgId
  revision : Revision
  op : TupleChangeOp
  object : EntityRef
  relation : String
  subject : String
  recordedAt : Int
deriving DecidableEq

/-- `MembershipSetRef`. -/
structure MembershipSetRef where
  object : EntityRef
  relation : String
deriving DecidableEq, Repr

/-- A row of `flattened_membership_sets`. -/
structure MembershipSetRow where
  orgId : OrgId
  set : MembershipSetRef
  validAtRevision : Revision
deriving DecidableEq

/-- A row of `flattened_memberships`.  Members come out of stored tuples, so they are writable. -/
structure MembershipRow where
  orgId : OrgId
  set : MembershipSetRef
  member : EntityRef
  depth : Nat
  writable : assertWritableEntityRef member = .ok ()
deriving DecidableEq

/-- `MembershipHit`. -/
structure MembershipHit where
  set : MembershipSetRef
  depth : Nat
  validAtRevision : Revision
deriving DecidableEq

/-! ## Keys -/

/-- The primary key of `relation_tuples`. -/
def tupleRowKey (tuple : RelationTuple) : OrgId × String × String × String × String :=
  (tuple.orgId, tuple.object.type, tuple.object.id, tuple.relation, encodeSubject tuple.subject)

/-- The primary key of `namespace_definitions`. -/
def definitionRowKey (definition : NamespaceDefinition) : OrgId × String :=
  (definition.orgId, definition.namespace_)

/-- The primary key of `flattened_membership_sets`. -/
def setRowKey (row : MembershipSetRow) : OrgId × MembershipSetRef := (row.orgId, row.set)

/-- The primary key of `flattened_memberships`. -/
def membershipRowKey (row : MembershipRow) : OrgId × MembershipSetRef × EntityRef :=
  (row.orgId, row.set, row.member)

/-- One consistent state of the store. -/
structure Database (dateParse : String → Option Int) where
  revisions : List Revision
  tuples : Table RelationTuple _ tupleRowKey
  changelog : List TupleChange
  definitions : Table NamespaceDefinition _ definitionRowKey
  policies : Table (Policy dateParse) String (·.id)
  membershipSets : Table MembershipSetRow _ setRowKey
  memberships : Table MembershipRow _ membershipRowKey
  indexCursor : Option Revision

namespace Database

variable {dateParse : String → Option Int} (db : Database dateParse) (orgId : OrgId)

def empty : Database dateParse :=
  ⟨[], Table.empty, [], Table.empty, Table.empty, Table.empty, Table.empty, none⟩

/-! ## Revisions -/

/-- The largest of a list of revisions, zero when there is none. -/
def maxRevision (revisions : List Revision) : Revision :=
  ⟨(revisions.map (·.value)).foldr max 0⟩

/-- `DrizzleRevisionsRepository.current`. -/
def current : Revision := maxRevision db.revisions

theorem le_maxRevision {revisions : List Revision} {r : Revision} (h : r ∈ revisions) :
    r.value ≤ (maxRevision revisions).value := by
  unfold maxRevision
  exact NamespaceRegistry.le_foldr_max (List.mem_map.mpr ⟨r, h, rfl⟩)

theorem maxRevision_append (revisions : List Revision) (r : Revision) :
    (maxRevision (revisions ++ [r])).value = max (maxRevision revisions).value r.value := by
  unfold maxRevision
  induction revisions with
  | nil => simp
  | cons q qs ih =>
    simp only [List.cons_append, List.map_cons, List.foldr_cons] at ih ⊢
    rw [ih, max_assoc]

/-! ## Relation tuples -/

/-- `DrizzleRelationTupleStore.upsert`: a conflict only moves the revision. -/
def upsertTuple (tuple : RelationTuple) : Database dateParse :=
  { db with
    tuples := db.tuples.upsert (fun old new => { old with revision := new.revision })
      (fun _ _ h => h) tuple }

/-- The rows `DrizzleRelationTupleStore.delete` removes: the subject is compared as text. -/
def matchesKey (object : EntityRef) (relation : String) (subject : SubjectRef)
    (tuple : RelationTuple) : Bool :=
  tuple.orgId = orgId && tuple.object = object && tuple.relation = relation &&
    encodeSubject tuple.subject = encodeSubject subject

/-- `DrizzleRelationTupleStore.delete`, with the number of rows removed. -/
def deleteTuple (object : EntityRef) (relation : String) (subject : SubjectRef) :
    Database dateParse × Nat :=
  ({ db with tuples := db.tuples.delete (matchesKey orgId object relation subject) },
    (db.tuples.select (matchesKey orgId object relation subject)).length)

/-- `DrizzleRelationTupleStore.listByObject`. -/
def listByObject (object : EntityRef) (relation : String) : List RelationTuple :=
  db.tuples.select fun tuple =>
    tuple.orgId = orgId && tuple.object = object && tuple.relation = relation

/-- The tuples of an organization, in table order. -/
def tuplesOf : List RelationTuple := db.tuples.select fun tuple => tuple.orgId = orgId

/-- `ORDER BY` several columns. -/
def columnsLe (collation : String → String → Bool) : List String → List String → Bool
  | a :: as, b :: bs => if a = b then columnsLe collation as bs else collation a b
  | [], _ => true
  | _ :: _, [] => false

/-- `DrizzleRelationTupleStore.list`, filtered by organization only, from the first row. -/
def listTuples (collation : String → String → Bool) (limit : Nat) : List RelationTuple :=
  let columns (tuple : RelationTuple) : List String :=
    [tuple.object.type, tuple.object.id, tuple.relation, encodeSubject tuple.subject]
  ((db.tuplesOf orgId).insertionSort fun a b =>
    columnsLe collation (columns a) (columns b) = true).take limit

/-- `DrizzleRelationTupleStore.listReferencedUsersets`. -/
def listReferencedUsersets (collation : String → String → Bool) : List MembershipSetRef :=
  let subjects := distinct ((db.tuplesOf orgId).map fun tuple => encodeSubject tuple.subject)
  let usersets := subjects.filter fun subject => '#' ∈ subject.toList
  (usersets.insertionSort fun a b => collation a b = true).filterMap fun subject =>
    match parseSubject subject with
    | .ok (.userset ref relation) => some ⟨ref, relation⟩
    | _ => none

/-! ## The changelog -/

/-- `DrizzleRelationTupleChangelog.append`. -/
def appendChange (change : TupleChange) : Database dateParse :=
  { db with changelog := db.changelog ++ [change] }

/-- `DrizzleRelationTupleChangelog.sinceAll`. -/
def changesSinceAll (collation : String → String → Bool) (afterRevision : Revision)
    (limit : Nat) : List TupleChange :=
  let columns (change : TupleChange) : List String :=
    [change.orgId.value, change.object.type, change.object.id, change.relation, change.subject]
  ((db.changelog.filter fun change => afterRevision.value < change.revision.value).insertionSort
    fun a b => a.revision.value < b.revision.value ∨ (a.revision = b.revision ∧
      columnsLe collation (columns a) (columns b) = true)).take limit

/-! ## Namespace definitions -/

/-- `DrizzleNamespaceDefinitionsRepository.save`: a conflict replaces config and revision. -/
def saveDefinition (definition : NamespaceDefinition) : Database dateParse :=
  { db with
    definitions := db.definitions.upsert
      (fun old new => { old with config := new.config, revision := new.revision })
      (fun _ _ h => h) definition }

/-- `DrizzleNamespaceDefinitionsRepository.findByNamespace`. -/
def findByNamespace (type : String) : Option NamespaceDefinition :=
  (db.definitions.select fun d => d.orgId = orgId && d.namespace_ = type).head?

/-- `DrizzleNamespaceDefinitionsRepository.listByOrg`. -/
def listByOrg (collation : String → String → Bool) : List NamespaceDefinition :=
  (db.definitions.select fun d => d.orgId = orgId).insertionSort fun a b =>
    collation a.namespace_ b.namespace_ = true

/-! ## Policies -/

/-- `DrizzlePoliciesRepository.upsert`: a conflict replaces the whole row. -/
def upsertPolicy (policy : Policy dateParse) : Database dateParse :=
  { db with policies := db.policies.upsert (fun _ new => new) (fun _ _ _ => rfl) policy }

/-- `DrizzlePoliciesRepository.deleteById`. -/
def deletePolicyById (id : String) : Database dateParse :=
  { db with policies := db.policies.delete fun policy => policy.orgId = orgId && policy.id = id }

/-- `DrizzlePoliciesRepository.listByTarget`. -/
def listByTarget (resourceType action : String) : List (Policy dateParse) :=
  db.policies.select fun policy => policy.orgId = orgId && policy.resourceType = resourceType &&
    (policy.action = action || policy.action = anyAction)

/-! ## The membership index -/

/-- `DrizzleMembershipIndexStore.membershipsOf`: memberships joined with their sets. -/
def membershipsOf (member : EntityRef) : List MembershipHit :=
  (db.memberships.select fun row => row.orgId = orgId && row.member = member).flatMap fun row =>
    (db.membershipSets.select fun set => set.orgId = row.orgId && set.set = row.set).map fun set =>
      ⟨row.set, row.depth, set.validAtRevision⟩

/-- `DrizzleMembershipIndexStore.organizationVersion`. -/
def organizationVersion : Revision :=
  ⟨max (maxRevision ((db.changelog.filter fun c => c.orgId = orgId).map (·.revision))).value
    (maxRevision ((db.definitions.select fun d => d.orgId = orgId).map (·.revision))).value⟩

/-- `DrizzleMembershipIndexStore.listSets`. -/
def listSets : List MembershipSetRef :=
  (db.membershipSets.select fun row => row.orgId = orgId).map (·.set)

/-- `DrizzleMembershipIndexStore.listOrgsWithNamespaceChanges`. -/
def listOrgsWithNamespaceChanges (afterRevision upTo : Revision) : List OrgId :=
  ((db.definitions.select fun d => afterRevision.value < d.revision.value &&
    d.revision.value ≤ upTo.value).map (·.orgId)).dedup

/-- `DrizzleMembershipIndexStore.readCursor`. -/
def readCursor : Revision := db.indexCursor.getD ⟨0⟩

/-- `DrizzleMembershipIndexStore.writeCursor`. -/
def writeCursor (revision : Revision) : Database dateParse :=
  { db with indexCursor := some revision }

/-- `DrizzleMembershipIndexStore.deleteMembers`. -/
def deleteMembers (set : MembershipSetRef) : Database dateParse :=
  { db with memberships := db.memberships.delete fun row => row.orgId = orgId && row.set = set }

/-- The rows `replace` inserts. -/
def membershipRows (set : MembershipSetRef) (members : List FlatMember) : List MembershipRow :=
  members.filterMap fun member =>
    if h : assertWritableEntityRef member.ref = .ok () then
      some ⟨orgId, set, member.ref, member.depth, h⟩
    else none

/-- `DrizzleMembershipIndexStore.replace`. -/
def replaceSet (set : MembershipSetRef) (members : List FlatMember) (validAt : Revision) :
    Database dateParse :=
  let cleared := db.deleteMembers orgId set
  { cleared with
    memberships := (membershipRows orgId set members).foldl
      (fun table row => table.upsert (fun _ new => new) (fun _ _ _ => rfl) row)
      cleared.memberships
    membershipSets := cleared.membershipSets.upsert
      (fun old new => { old with validAtRevision := new.validAtRevision }) (fun _ _ h => h)
      ⟨orgId, set, validAt⟩ }

/-- `DrizzleMembershipIndexStore.remove`. -/
def removeSet (set : MembershipSetRef) : Database dateParse :=
  let cleared := db.deleteMembers orgId set
  { cleared with
    membershipSets := cleared.membershipSets.delete fun row =>
      row.orgId = orgId && row.set = set }

end Database

/-! ## What the repositories return -/

namespace Database

variable {dateParse : String → Option Int} {db : Database dateParse} {orgId : OrgId}

theorem mem_listByObject {object : EntityRef} {relation : String} {tuple : RelationTuple} :
    tuple ∈ db.listByObject orgId object relation ↔
      tuple ∈ db.tuples.rows ∧ tuple.orgId = orgId ∧ tuple.object = object ∧
        tuple.relation = relation := by
  simp [listByObject, Table.select, and_assoc]

/-- Rows are found only under a writable node. -/
theorem listByObject_writable {object : EntityRef} {relation : String}
    (h : db.listByObject orgId object relation ≠ []) : WritableNode object relation := by
  obtain ⟨tuple, ht⟩ := List.exists_mem_of_ne_nil _ h
  obtain ⟨_, _, rfl, rfl⟩ := mem_listByObject.mp ht
  exact tuple.writableNode

theorem mem_of_findByNamespace {type : String} {definition : NamespaceDefinition}
    (h : db.findByNamespace orgId type = some definition) :
    definition ∈ db.definitions.rows ∧ definition.orgId = orgId ∧
      definition.namespace_ = type := by
  have hmem := List.mem_of_head? h
  simpa [Table.select] using hmem

/-- The definition of a type is the one row with that key. -/
theorem findByNamespace_eq {definition : NamespaceDefinition}
    (h : definition ∈ db.definitions.rows) :
    db.findByNamespace definition.orgId definition.namespace_ = some definition := by
  cases hfind : db.findByNamespace definition.orgId definition.namespace_ with
  | none =>
    have hnil := List.head?_eq_none_iff.mp hfind
    have hmem : definition ∈ db.definitions.select fun d =>
        d.orgId = definition.orgId && d.namespace_ = definition.namespace_ := by
      simp [Table.select, h]
    rw [hnil] at hmem
    exact absurd hmem List.not_mem_nil
  | some found =>
    obtain ⟨hmem, horg, htype⟩ := mem_of_findByNamespace hfind
    rw [Table.eq_of_key hmem h (by simp [definitionRowKey, horg, htype])]

/-- All the namespaces of an organization. -/
def registry (db : Database dateParse) (orgId : OrgId) : NamespaceRegistry :=
  NamespaceRegistry.of (db.definitions.select fun d => d.orgId = orgId)

/-- Looking a type up among all the namespaces is looking it up in the table. -/
theorem registry_get (type : String) :
    (db.registry orgId).get type = db.findByNamespace orgId type := by
  unfold registry
  cases hfind : db.findByNamespace orgId type with
  | none =>
    apply NamespaceRegistry.get_of_none
    intro d hd htype
    obtain ⟨hrow, horg⟩ : d ∈ db.definitions.rows ∧ d.orgId = orgId := by
      simpa [Table.select] using hd
    have hfound := findByNamespace_eq hrow
    rw [horg, htype, hfind] at hfound
    cases hfound
  | some definition =>
    obtain ⟨hrow, horg, rfl⟩ := mem_of_findByNamespace hfind
    apply NamespaceRegistry.get_of_mem
    · simpa [Table.select, horg] using hrow
    · intro d hd htype
      obtain ⟨hd, hdorg⟩ : d ∈ db.definitions.rows ∧ d.orgId = orgId := by
        simpa [Table.select] using hd
      exact Table.eq_of_key hd hrow (by simp [definitionRowKey, htype, hdorg, horg])

/-- A hit is for a writable member. -/
theorem membershipsOf_writable {member : EntityRef} (h : db.membershipsOf orgId member ≠ []) :
    assertWritableEntityRef member = .ok () := by
  obtain ⟨hit, hhit⟩ := List.exists_mem_of_ne_nil _ h
  obtain ⟨row, hrow, _⟩ := List.mem_flatMap.mp hhit
  have hmember : row.member = member := by
    have hsel := (List.mem_filter.mp hrow).2
    simp only [Bool.and_eq_true, decide_eq_true_eq] at hsel
    exact hsel.2
  rw [← hmember]
  exact row.writable

end Database

end AccessCore
