/-
  Why the index may be believed (`authz/application/membership-indexer.ts`, `indexedMemberships` of
  `pdp-service.ts`).

  A check uses a set of the index only if its stamp is at or above the version of the organization.
  The version grows with every change that flattening can see (`run_version`), and a tick stamps
  what it has flattened with a revision that was current or past when it read the first tuple.  So
  nothing has to be known about the lock, the cursor or the pages: if the stamp passes, no change
  has been committed since the tick began to read, and what it read is what is still there.

  `Settled` says this of anything that a tick has read or computed, or that the index stores.
  `index_fresh` follows for every run.
-/
import AccessCore.Authz.Indexer

namespace AccessCore

variable {dateParse : String → Option Int} {db db' : Database dateParse} {orgId : OrgId}
  {collation : String → String → Bool}

/-! ## What a tick flattens -/

/-- All the tuples of an organization in the order of `RelationTupleStore.list`. -/
def Database.allTuples (db : Database dateParse) (orgId : OrgId)
    (collation : String → String → Bool) : List RelationTuple :=
  db.listTuples orgId collation (db.tuplesOf orgId).length

/-- The snapshot of `reindexOrg`. -/
def reindexSnapshot (orgId : OrgId) (tuples : List RelationTuple)
    (definitions : List NamespaceDefinition) : EvaluationSnapshot :=
  ⟨NamespaceRegistry.of definitions, TupleIndex.of orgId tuples, none⟩

/-- What an organization has of members in a set, by its own tuples and namespaces. -/
def Database.flattenedSet (db : Database dateParse) (orgId : OrgId)
    (collation : String → String → Bool) (set : MembershipSetRef) : FlattenedSet :=
  flattenSet set.object set.relation
    (reindexSnapshot orgId (db.allTuples orgId collation) (db.listByOrg orgId collation))

/-- A list that has not reached its limit is the whole list. -/
theorem listTuples_eq_all {limit : Nat}
    (h : ¬ limit < (db.listTuples orgId collation (limit + 1)).length) :
    db.listTuples orgId collation (limit + 1) = db.allTuples orgId collation := by
  unfold Database.allTuples
  unfold Database.listTuples at h ⊢
  rw [List.length_take, List.length_insertionSort] at h
  rw [List.take_of_length_le, List.take_of_length_le]
  · rw [List.length_insertionSort]
  · rw [List.length_insertionSort]
    omega

/-- One more userset. -/
theorem wantedSets_append (snapshot : EvaluationSnapshot) (usersets : List MembershipSetRef)
    (set : MembershipSetRef) :
    wantedSets snapshot (usersets ++ [set]) =
      if (flattenSet set.object set.relation snapshot).monotonic then
        OrderedMap.set (wantedSets snapshot usersets) (setKey set)
          (set, (flattenSet set.object set.relation snapshot).members)
      else wantedSets snapshot usersets := by
  unfold wantedSets
  rw [List.foldl_append]
  rfl

/-- Every wanted set is one of the referenced sets, monotonic, with its members. -/
theorem mem_wantedSets {snapshot : EvaluationSnapshot} {usersets : List MembershipSetRef}
    {e : String × MembershipSetRef × List FlatMember} (h : e ∈ wantedSets snapshot usersets) :
    (flattenSet e.2.1.object e.2.1.relation snapshot).monotonic = true ∧
      e.2.2 = (flattenSet e.2.1.object e.2.1.relation snapshot).members := by
  induction usersets using List.reverseRecOn with
  | nil => exact absurd h List.not_mem_nil
  | append_singleton usersets set ih =>
    rw [wantedSets_append] at h
    split_ifs at h with hmonotonic
    · rcases OrderedMap.mem_set h with hold | rfl
      · exact ih hold
      · exact ⟨hmonotonic, rfl⟩
    · exact ih h

/-! ## What a writer does to an organization -/

/-- A deletion that matches no row. -/
theorem deleteTuple_unseen_of_none (db : Database dateParse) (object : EntityRef)
    (relation : String) (subject : SubjectRef)
    (h : ¬ 0 < (db.deleteTuple orgId object relation subject).2) :
    Unseen db (db.deleteTuple orgId object relation subject).1 orgId := by
  refine ⟨?_, rfl, rfl, rfl, rfl, Nat.le_refl _⟩
  apply Table.select_delete
  intro tuple htuple _
  have hnone : db.tuples.select (Database.matchesKey orgId object relation subject) = [] :=
    List.eq_nil_of_length_eq_zero (Nat.eq_zero_of_not_pos h)
  cases hmatch : Database.matchesKey orgId object relation subject tuple with
  | false => rfl
  | true =>
    have hmem : tuple ∈ db.tuples.select (Database.matchesKey orgId object relation subject) :=
      List.mem_filter.mpr ⟨htuple, hmatch⟩
    rw [hnone] at hmem
    exact absurd hmem List.not_mem_nil

theorem version_of_change {change : TupleChange} (h : change ∈ db.changelog)
    (horg : change.orgId = orgId) :
    change.revision.value ≤ (db.organizationVersion orgId).value := by
  have hmem : change ∈ db.changelog.filter fun c => c.orgId = orgId :=
    List.mem_filter.mpr ⟨h, decide_eq_true horg⟩
  exact le_trans (Database.le_maxRevision (List.mem_map.mpr ⟨change, hmem, rfl⟩))
    (Nat.le_max_left _ _)

theorem version_of_definition {definition : NamespaceDefinition}
    (h : definition ∈ db.definitions.rows) (horg : definition.orgId = orgId) :
    definition.revision.value ≤ (db.organizationVersion orgId).value := by
  have hmem : definition ∈ db.definitions.select fun d => d.orgId = orgId :=
    List.mem_filter.mpr ⟨h, decide_eq_true horg⟩
  exact le_trans (Database.le_maxRevision (List.mem_map.mpr ⟨definition, hmem, rfl⟩))
    (Nat.le_max_right _ _)

/-- The row that a definition is saved in has its revision. -/
theorem saveDefinition_revision (db : Database dateParse) (definition : NamespaceDefinition) :
    ∃ saved ∈ (db.saveDefinition definition).definitions.rows,
      saved.orgId = definition.orgId ∧ saved.revision = definition.revision := by
  have hkeeps : Table.KeepsKey definitionRowKey fun old new : NamespaceDefinition =>
      { old with config := new.config, revision := new.revision } := fun _ _ h => h
  have hget : (db.definitions.upsert _ hkeeps definition).get (definitionRowKey definition) = _ :=
    Table.get_upsert hkeeps (definitionRowKey definition)
  rw [if_pos rfl] at hget
  obtain ⟨hsaved, hkey⟩ := Table.mem_of_get hget
  refine ⟨_, hsaved, congrArg Prod.fst hkey, ?_⟩
  cases db.definitions.get (definitionRowKey definition) with
  | none => rfl
  | some old => rfl

/-- **A writer** leaves an organization as it is, or brings its version to the new revision. -/
theorem run_version (db : Database dateParse) (operation : AdminOperation) (r : Revision)
    (orgId : OrgId) :
    Unseen db (operation.run r db) orgId ∨
      r.value ≤ ((operation.run r db).organizationVersion orgId).value := by
  by_cases horg : operation.orgId = orgId
  case neg => exact Or.inl (run_unseen db r horg)
  have hallocated := allocate_unseen db r orgId
  cases operation with
  | writeTuple command recordedAt =>
    show Unseen db (AdminOperation.committed db
        (RelationTupleWriter.write command recordedAt r db)) orgId ∨
      r.value ≤ ((AdminOperation.committed db
        (RelationTupleWriter.write command recordedAt r db)).organizationVersion orgId).value
    unfold RelationTupleWriter.write
    cases RelationTuple.write command.orgId command.object command.relation command.subject r
        recordedAt with
    | error message => exact Or.inl (Unseen.refl db orgId)
    | ok tuple =>
      have hchange : RelationTupleWriter.change command .upsert r recordedAt ∈
          (((db.allocate r).upsertTuple tuple).appendChange
            (RelationTupleWriter.change command .upsert r recordedAt)).changelog :=
        List.mem_append_right _ (List.mem_singleton_self _)
      exact Or.inr (version_of_change hchange horg)
  | revokeTuple command recordedAt =>
    show Unseen db (RelationTupleWriter.revoke command recordedAt r db).2 orgId ∨
      r.value ≤ ((RelationTupleWriter.revoke command recordedAt r db).2.organizationVersion
        orgId).value
    have hcommand : command.orgId = orgId := horg
    unfold RelationTupleWriter.revoke
    dsimp only
    split_ifs with hremoved
    · have hchange : RelationTupleWriter.change command .delete r recordedAt ∈
          (((db.allocate r).deleteTuple command.orgId command.object command.relation
            command.subject).1.appendChange
            (RelationTupleWriter.change command .delete r recordedAt)).changelog :=
        List.mem_append_right _ (List.mem_singleton_self _)
      exact Or.inr (version_of_change hchange horg)
    · -- No row is removed, and nothing is logged.
      rw [hcommand] at hremoved ⊢
      exact Or.inl (hallocated.trans (deleteTuple_unseen_of_none _ _ _ _ hremoved))
  | defineNamespace command createdAt =>
    show Unseen db (AdminOperation.committed db
        (NamespaceConfigWriter.define command createdAt r db)) orgId ∨
      r.value ≤ ((AdminOperation.committed db
        (NamespaceConfigWriter.define command createdAt r db)).organizationVersion orgId).value
    unfold NamespaceConfigWriter.define
    split_ifs
    · exact Or.inl (Unseen.refl db orgId)
    · cases NamespaceConfig.create command.config with
      | error error => exact Or.inl (Unseen.refl db orgId)
      | ok config =>
        right
        obtain ⟨saved, hsaved, hsavedOrg, hrevision⟩ := saveDefinition_revision (db.allocate r)
          ⟨command.orgId, command.namespace_, config, r, createdAt⟩
        have hversion := version_of_definition hsaved (hsavedOrg.trans horg)
        rw [hrevision] at hversion
        exact hversion
  | writePolicy command =>
    left
    show Unseen db (AdminOperation.committed db (PolicyWriter.write command r db)) orgId
    unfold PolicyWriter.write
    split
    · exact Unseen.refl db orgId
    · exact hallocated.trans ⟨rfl, rfl, rfl, rfl, rfl, Nat.le_refl _⟩
  | deletePolicy org id =>
    exact Or.inl (hallocated.trans ⟨rfl, rfl, rfl, rfl, rfl, Nat.le_refl _⟩)

/-! ## What a stamp promises -/

/-- A property of an organization's tuples and namespaces that holds unless the organization has
changed after `validAt`; and `validAt` is not in the future. -/
structure Settled (db : Database dateParse) (orgId : OrgId)
    (collation : String → String → Bool) (validAt : Revision)
    (p : List RelationTuple → List NamespaceDefinition → Prop) : Prop where
  past : validAt.value ≤ db.current.value
  holds : (db.organizationVersion orgId).value ≤ validAt.value →
    p (db.allTuples orgId collation) (db.listByOrg orgId collation)

namespace Settled

variable {validAt : Revision} {p q : List RelationTuple → List NamespaceDefinition → Prop}

theorem imp (h : Settled db orgId collation validAt p)
    (himp : ∀ tuples definitions, p tuples definitions → q tuples definitions) :
    Settled db orgId collation validAt q :=
  ⟨h.past, fun hversion => himp _ _ (h.holds hversion)⟩

/-- Between two states in which an organization is the same. -/
theorem of_same (h : Settled db orgId collation validAt p)
    (hcurrent : db.current.value ≤ db'.current.value)
    (htuples : db'.tuplesOf orgId = db.tuplesOf orgId)
    (hdefinitions : (db'.definitions.select fun d => d.orgId = orgId) =
      db.definitions.select fun d => d.orgId = orgId)
    (hchangelog : (db'.changelog.filter fun c => c.orgId = orgId) =
      db.changelog.filter fun c => c.orgId = orgId) :
    Settled db' orgId collation validAt p := by
  have hversion : db'.organizationVersion orgId = db.organizationVersion orgId := by
    unfold Database.organizationVersion
    rw [hchangelog, hdefinitions]
  have hall : db'.allTuples orgId collation = db.allTuples orgId collation := by
    unfold Database.allTuples Database.listTuples
    rw [htuples]
  have hlist : db'.listByOrg orgId collation = db.listByOrg orgId collation := by
    unfold Database.listByOrg
    rw [hdefinitions]
  constructor
  · exact le_trans h.past hcurrent
  · intro hle
    rw [hall, hlist]
    rw [hversion] at hle
    exact h.holds hle

/-- A writer that changes the organization does so above the stamp. -/
theorem write (h : Settled db orgId collation validAt p) (operation : AdminOperation)
    {r : Revision} (hr : db.current.value < r.value)
    (hcurrent : db.current.value ≤ (operation.run r db).current.value) :
    Settled (operation.run r db) orgId collation validAt p := by
  rcases run_version db operation r orgId with hunseen | hversion
  · exact h.of_same hcurrent hunseen.tuples hunseen.definitions hunseen.changelog
  · refine ⟨le_trans h.past hcurrent, fun hle => ?_⟩
    have hpast := h.past
    omega

theorem of_sameStore (h : Settled db orgId collation validAt p)
    (hstore : Database.SameStore db db') : Settled db' orgId collation validAt p := by
  apply h.of_same
  · unfold Database.current
    rw [hstore.revisions]
  · unfold Database.tuplesOf
    rw [hstore.tuples]
  · rw [hstore.definitions]
  · rw [hstore.changelog]

end Settled

/-- A set is monotonic and has these members. -/
def FlatIn (orgId : OrgId) (set : MembershipSetRef) (members : FlatMember → Prop)
    (tuples : List RelationTuple) (definitions : List NamespaceDefinition) : Prop :=
  let flattened := flattenSet set.object set.relation (reindexSnapshot orgId tuples definitions)
  flattened.monotonic = true ∧ ∀ m, members m → m ∈ flattened.members

/-- The members that the index stores for a set. -/
def Database.Stores (db : Database dateParse) (orgId : OrgId) (set : MembershipSetRef)
    (m : FlatMember) : Prop :=
  ∃ row ∈ db.memberships.rows, row.orgId = orgId ∧ row.set = set ∧ m = ⟨row.member, row.depth⟩

/-- What a write puts into the index, by the tables it is going to be committed to. -/
def IndexWrite.Right (db : Database dateParse) (collation : String → String → Bool) :
    IndexWrite → Prop
  | .replace orgId set members validAt =>
    Settled db orgId collation validAt (FlatIn orgId set (· ∈ members))
  | _ => True

/-- What the index has, by the tables it is stored with. -/
def Database.IndexRight (db : Database dateParse) (collation : String → String → Bool) : Prop :=
  ∀ row ∈ db.membershipSets.rows, Settled db row.orgId collation row.validAtRevision
    (FlatIn row.orgId row.set (db.Stores row.orgId row.set))

/-! ## Committing -/

theorem mem_overwrites {rows : List MembershipRow} {table : Table MembershipRow _ membershipRowKey}
    {row : MembershipRow}
    (h : row ∈ (rows.foldl (fun table row => table.upsert (fun _ new => new) (fun _ _ _ => rfl) row)
      table).rows) : row ∈ table.rows ∨ row ∈ rows := by
  induction rows generalizing table with
  | nil => exact Or.inl h
  | cons new rows ih =>
    rcases ih h with hrow | hrow
    · rcases Table.mem_upsertRows hrow with rfl | ⟨old, -, -, rfl⟩ | hold
      · exact Or.inr List.mem_cons_self
      · exact Or.inr List.mem_cons_self
      · exact Or.inl hold
    · exact Or.inr (List.mem_cons_of_mem _ hrow)

/-- What `deleteMembers` leaves belongs to other sets. -/
theorem mem_deleteMembers {set : MembershipSetRef} {row : MembershipRow}
    (h : row ∈ (db.deleteMembers orgId set).memberships.rows) :
    row ∈ db.memberships.rows ∧ ¬ (row.orgId = orgId ∧ row.set = set) := by
  obtain ⟨hrow, hkept⟩ := List.mem_filter.mp h
  refine ⟨hrow, fun ⟨horg, hset⟩ => ?_⟩
  simp [horg, hset] at hkept

/-- After `replace`, a set stores its new members, and the others what they did. -/
theorem stores_replaceSet {set : MembershipSetRef} {members : List FlatMember}
    {validAt : Revision} {org : OrgId} {set' : MembershipSetRef} {m : FlatMember}
    (h : (db.replaceSet orgId set members validAt).Stores org set' m) :
    ((org, set') = (orgId, set) ∧ m ∈ members) ∨
      ((org, set') ≠ (orgId, set) ∧ db.Stores org set' m) := by
  obtain ⟨row, hrow, rfl, rfl, rfl⟩ := h
  rcases mem_overwrites hrow with hold | hnew
  · obtain ⟨hmem, hother⟩ := mem_deleteMembers hold
    right
    refine ⟨fun hkey => hother (Prod.mk.inj hkey), row, hmem, rfl, rfl, rfl⟩
  · left
    obtain ⟨member, hmember, hrow⟩ := List.mem_filterMap.mp hnew
    split_ifs at hrow with hwritable
    obtain rfl := Option.some.inj hrow
    exact ⟨rfl, hmember⟩

theorem stores_removeSet {set : MembershipSetRef} {org : OrgId} {set' : MembershipSetRef}
    {m : FlatMember} (h : (db.removeSet orgId set).Stores org set' m) : db.Stores org set' m := by
  obtain ⟨row, hrow, horg, hset, hm⟩ := h
  exact ⟨row, (mem_deleteMembers hrow).1, horg, hset, hm⟩

/-- One write of a tick. -/
theorem Database.IndexRight.apply (h : db.IndexRight collation) {w : IndexWrite}
    (hw : w.Right db collation) : (w.apply db).IndexRight collation := by
  have hstore := db.applyAll_sameStore [w]
  intro row hrow
  cases w with
  | replace orgId set members validAt =>
    rcases Database.mem_sets_replaceSet hrow with rfl | ⟨hold, hkey⟩
    · refine (Settled.of_sameStore hw hstore).imp fun tuples definitions hflat => ?_
      refine ⟨hflat.1, fun m hm => hflat.2 m ?_⟩
      rcases stores_replaceSet hm with ⟨-, hmember⟩ | ⟨hother, -⟩
      · exact hmember
      · exact absurd rfl hother
    · refine (Settled.of_sameStore (h row hold) hstore).imp fun tuples definitions hflat => ?_
      refine ⟨hflat.1, fun m hm => hflat.2 m ?_⟩
      rcases stores_replaceSet hm with ⟨hsame, -⟩ | ⟨-, hstored⟩
      · exact absurd hsame hkey
      · exact hstored
  | remove orgId set =>
    have hold := (Database.mem_sets_removeSet hrow).1
    refine (Settled.of_sameStore (h row hold) hstore).imp fun tuples definitions hflat => ?_
    exact ⟨hflat.1, fun m hm => hflat.2 m (stores_removeSet hm)⟩
  | writeCursor revision => exact Settled.of_sameStore (h row hrow) hstore

theorem IndexWrite.Right.of_sameStore {w : IndexWrite} (h : w.Right db collation)
    (hstore : Database.SameStore db db') : w.Right db' collation := by
  cases w with
  | replace orgId set members validAt => exact Settled.of_sameStore h hstore
  | remove orgId set => trivial
  | writeCursor revision => trivial

/-- All the writes of a tick. -/
theorem Database.IndexRight.applyAll (h : db.IndexRight collation) {writes : List IndexWrite}
    (hwrites : ∀ w ∈ writes, w.Right db collation) :
    (db.applyAll writes).IndexRight collation := by
  induction writes generalizing db with
  | nil => exact h
  | cons w writes ih =>
    have hstore := db.applyAll_sameStore [w]
    have hfirst : (w.apply db).IndexRight collation := h.apply (hwrites w List.mem_cons_self)
    refine ih hfirst fun w' hw' => ?_
    exact (hwrites w' (List.mem_cons_of_mem _ hw')).of_sameStore hstore

/-! ## The invariant -/

namespace Indexers

variable {s : Indexers dateParse} {id : Nat} {tick : Tick}

/-- What a tick has read or computed for the organization it reindexes. -/
def StageRight (db : Database dateParse) (collation : String → String → Bool) : TickStage → Prop
  | .loading upTo _ orgId tuples =>
    Settled db orgId collation upTo fun all _ => tuples = all
  | .flattening upTo _ orgId snapshot =>
    Settled db orgId collation upTo fun all definitions =>
      snapshot = reindexSnapshot orgId all definitions
  | .sweeping upTo _ orgId wanted =>
    ∀ e ∈ wanted, Settled db orgId collation upTo (FlatIn orgId e.2.1 (· ∈ e.2.2))
  | _ => True

structure TickRight (db : Database dateParse) (collation : String → String → Bool)
    (tick : Tick) : Prop where
  stage : StageRight db collation tick.stage
  written : ∀ w ∈ tick.written, w.Right db collation

structure Right (s : Indexers dateParse) (collation : String → String → Bool) : Prop where
  ok : s.Ok
  index : s.db.IndexRight collation
  ticks : ∀ id tick, s.ticks id = some tick → TickRight s.db collation tick

theorem Right.initial : (Indexers.initial : Indexers dateParse).Right collation where
  ok := Ok.initial
  index row hrow := absurd hrow List.not_mem_nil
  ticks id tick h := by cases h

theorem Right.setTick (h : s.Right collation) (holder : Option Nat) {tick : Tick}
    (hok : ({ s.setTick id tick with holder := holder } : Indexers dateParse).Ok)
    (htick : TickRight s.db collation tick) :
    ({ s.setTick id tick with holder := holder } : Indexers dateParse).Right collation where
  ok := hok
  index := h.index
  ticks i t ht := by
    have hcases : (if i = id then some tick else s.ticks i) = some t := ht
    split_ifs at hcases with hi
    · obtain rfl := Option.some.inj hcases
      exact htick
    · exact h.ticks i t hcases

theorem Right.finish (h : s.Right collation) (id : Nat) : (s.finish id).Right collation where
  ok := h.ok.finish
  index := h.index
  ticks i t ht := by
    have hcases : (if i = id then none else s.ticks i) = some t := ht
    split_ifs at hcases
    exact h.ticks i t hcases

theorem TickRight.write (h : TickRight db collation tick) (operation : AdminOperation)
    {r : Revision} (hr : db.current.value < r.value)
    (hcurrent : db.current.value ≤ (operation.run r db).current.value) :
    TickRight (operation.run r db) collation tick := by
  constructor
  · have hstage := h.stage
    cases hcase : tick.stage with
    | loading upTo orgs orgId tuples =>
      rw [hcase] at hstage
      exact Settled.write hstage operation hr hcurrent
    | flattening upTo orgs orgId snapshot =>
      rw [hcase] at hstage
      exact Settled.write hstage operation hr hcurrent
    | sweeping upTo orgs orgId wanted =>
      rw [hcase] at hstage
      exact fun e he => Settled.write (hstage e he) operation hr hcurrent
    | _ => trivial
  · intro w hw
    have hright := h.written w hw
    cases w with
    | replace orgId set members validAt => exact Settled.write hright operation hr hcurrent
    | remove orgId set => trivial
    | writeCursor revision => trivial

/-- The step lemma for a writer. -/
theorem Right.write (h : s.Right collation) (operation : AdminOperation) (skipped : Nat) :
    ({ s with db := operation.run ⟨s.db.current.value + 1 + skipped⟩ s.db } :
      Indexers dateParse).Right collation := by
  have hnext : s.db.current.value < s.db.current.value + 1 + skipped := by omega
  obtain ⟨-, hcurrent, -⟩ :=
    h.ok.committed.write operation (r := ⟨s.db.current.value + 1 + skipped⟩) hnext
  have hindex := Database.run_sameIndex s.db operation ⟨s.db.current.value + 1 + skipped⟩
  constructor
  · exact h.ok.write operation skipped
  · intro row hrow
    have hrow' : row ∈ s.db.membershipSets.rows := hindex.membershipSets ▸ hrow
    refine ((h.index row hrow').write operation hnext hcurrent).imp fun _ _ hflat => ?_
    refine ⟨hflat.1, fun m ⟨stored, hstored, hm⟩ => hflat.2 m ⟨stored, ?_, hm⟩⟩
    exact hindex.memberships ▸ hstored
  · intro i t ht
    exact (h.ticks i t ht).write operation hnext hcurrent

/-- The tables a tick commits: what other ticks have read is still there. -/
theorem Right.commit (h : s.Right collation) {upTo : Revision} {written : List IndexWrite}
    (htick : s.ticks id = some ⟨.reindexing upTo [], written⟩) :
    ({ s.finish id with db := s.db.applyAll (written ++ [.writeCursor upTo]) } :
      Indexers dateParse).Right collation := by
  have hupTo : upTo.value ≤ s.db.current.value := h.ok.ticks id _ htick upTo List.mem_cons_self
  have hstore := s.db.applyAll_sameStore (written ++ [.writeCursor upTo])
  have hwritten := (h.ticks id _ htick).written
  constructor
  · exact h.ok.commit hupTo
  · apply h.index.applyAll
    intro w hw
    rcases List.mem_append.mp hw with hw | hw
    · exact hwritten w hw
    · rw [List.mem_singleton.mp hw]
      trivial
  · intro i t ht
    have hright := (h.finish id).ticks i t ht
    have hstage := hright.stage
    constructor
    · cases hcase : t.stage with
      | loading upTo orgs orgId tuples =>
        rw [hcase] at hstage
        exact Settled.of_sameStore hstage hstore
      | flattening upTo orgs orgId snapshot =>
        rw [hcase] at hstage
        exact Settled.of_sameStore hstage hstore
      | sweeping upTo orgs orgId wanted =>
        rw [hcase] at hstage
        exact fun e he => Settled.of_sameStore (hstage e he) hstore
      | _ => trivial
    · intro w hw
      exact (hright.written w hw).of_sameStore hstore

variable (options : Nat → MembershipIndexerOptions)

/-- **The statement of a tick.** -/
theorem Right.next (h : s.Right collation) (htick : s.ticks id = some tick) :
    (s.next collation options id tick).Right collation := by
  have hok := h.ok.next collation options htick
  have hrevisions := h.ok.ticks id tick htick
  obtain ⟨hstage, hwritten⟩ := h.ticks id tick htick
  obtain ⟨stage, written⟩ := tick
  unfold Indexers.next at hok ⊢
  cases stage with
  | locking cursor =>
    dsimp only at hok ⊢
    split_ifs at hok ⊢
    · exact h.finish id
    · exact h.setTick (some id) hok ⟨trivial, hwritten⟩
  | reading cursor => exact h.setTick s.holder hok ⟨trivial, hwritten⟩
  | paging cursor high =>
    dsimp only at hok ⊢
    split_ifs at hok ⊢
    · exact h.finish id
    · exact h.setTick s.holder hok ⟨trivial, hwritten⟩
  | listing cursor upTo changes => exact h.setTick s.holder hok ⟨trivial, hwritten⟩
  | reindexing upTo orgs =>
    cases orgs with
    | nil => exact h.commit htick
    | cons orgId orgs =>
      dsimp only at hok ⊢
      split_ifs at hok ⊢ with hbound
      · exact h.setTick s.holder hok ⟨trivial, hwritten⟩
      · -- The tuples are all there are, whatever the version is.
        have hupTo : upTo.value ≤ s.db.current.value := hrevisions upTo List.mem_cons_self
        exact h.setTick s.holder hok ⟨⟨hupTo, fun _ => listTuples_eq_all hbound⟩, hwritten⟩
  | loading upTo orgs orgId tuples =>
    -- The namespaces are read now; the tuples are those of now if nothing has changed.
    have hloaded : Settled s.db orgId collation upTo fun all _ => tuples = all := hstage
    refine h.setTick s.holder hok ⟨⟨hloaded.past, fun hversion => ?_⟩, hwritten⟩
    show reindexSnapshot orgId tuples _ = _
    rw [hloaded.holds hversion]
  | flattening upTo orgs orgId snapshot =>
    have hsnapshot : Settled s.db orgId collation upTo fun all definitions =>
      snapshot = reindexSnapshot orgId all definitions := hstage
    refine h.setTick s.holder hok ⟨fun e he => ?_, hwritten⟩
    obtain ⟨hmonotonic, hmembers⟩ := mem_wantedSets he
    refine hsnapshot.imp fun all definitions heq => ?_
    rw [heq] at hmonotonic hmembers
    exact ⟨hmonotonic, fun m hm => hmembers ▸ hm⟩
  | sweeping upTo orgs orgId wanted =>
    refine h.setTick s.holder hok ⟨trivial, fun w hw => ?_⟩
    rcases List.mem_append.mp hw with hw | hw
    · exact hwritten w hw
    · unfold reindexWrites at hw
      rcases List.mem_append.mp hw with hw | hw
      · obtain ⟨_, -, rfl⟩ := List.mem_map.mp hw
        trivial
      · obtain ⟨e, he, rfl⟩ := List.mem_map.mp hw
        exact hstage e he

/-- **The step lemma.** -/
theorem Right.step (h : s.Right collation) (e : IndexerStep) :
    (s.step collation options e).Right collation := by
  have hok := h.ok.step collation options e
  cases e with
  | write operation skipped => exact h.write operation skipped
  | start id =>
    dsimp only [Indexers.step] at hok ⊢
    cases htick : s.ticks id with
    | some tick => exact h
    | none =>
      rw [htick] at hok
      exact h.setTick s.holder hok ⟨trivial, fun w hw => absurd hw List.not_mem_nil⟩
  | next id =>
    dsimp only [Indexers.step]
    cases htick : s.ticks id with
    | some tick => exact h.next options htick
    | none => exact h
  | abort id => exact h.finish id

/-- **The run lemma.** -/
theorem Right.run (h : s.Right collation) (steps : List IndexerStep) :
    (s.run collation options steps).Right collation := by
  induction steps generalizing s with
  | nil => exact h
  | cons e steps ih => exact ih (h.step options e)

end Indexers

/-! ## Freshness -/

/-- **A membership that passes the gate** is one by the tuples and the namespaces of the same
snapshot, in a set without exclusion, at the same depth. -/
theorem index_fresh (collation : String → String → Bool) (options : Nat → MembershipIndexerOptions)
    (steps : List IndexerStep) (orgId : OrgId) (member : EntityRef) (hit : MembershipHit) :
    let db := ((Indexers.initial : Indexers dateParse).run collation options steps).db
    hit ∈ db.membershipsOf orgId member →
      (db.organizationVersion orgId).value ≤ hit.validAtRevision.value →
        (db.flattenedSet orgId collation hit.set).monotonic = true ∧
          ⟨member, hit.depth⟩ ∈ (db.flattenedSet orgId collation hit.set).members := by
  intro db hhit hversion
  have hinitial : (Indexers.initial : Indexers dateParse).Right collation := Indexers.Right.initial
  have hright := (hinitial.run options steps).index
  obtain ⟨row, hrow, hjoined⟩ := List.mem_flatMap.mp hhit
  obtain ⟨set, hset, rfl⟩ := List.mem_map.mp hjoined
  obtain ⟨hrow, hrowOf⟩ := List.mem_filter.mp hrow
  obtain ⟨hset, hsetOf⟩ := List.mem_filter.mp hset
  simp only [Bool.and_eq_true, decide_eq_true_eq] at hrowOf hsetOf
  obtain ⟨horg, hmember⟩ := hrowOf
  obtain ⟨hsetOrg, hsetSet⟩ := hsetOf
  have hsettled := hright set hset
  rw [hsetOrg, hsetSet, horg] at hsettled
  obtain ⟨hmonotonic, hmembers⟩ := hsettled.holds hversion
  exact ⟨hmonotonic, hmembers _ ⟨row, hrow, horg, rfl, by rw [hmember]⟩⟩

open Indexers in
theorem index_fresh_ann :
    let db := ((initial : Indexers fun _ => none).run (fun a b => a ≤ b) (fun _ => ⟨2, 10⟩)
      ([viewersGrant, viewersMember, .start 0] ++ wholeTick 0)).db
    (db.flattenedSet viewersGroup.1 (fun a b => a ≤ b) viewersGroup.2).monotonic = true ∧
      ⟨⟨"user", "ann"⟩, 0⟩ ∈
        (db.flattenedSet viewersGroup.1 (fun a b => a ≤ b) viewersGroup.2).members :=
  index_fresh (fun a b => a ≤ b) (fun _ => ⟨2, 10⟩)
    ([viewersGrant, viewersMember, .start 0] ++ wholeTick 0) viewersGroup.1 ⟨"user", "ann"⟩
    ⟨viewersGroup.2, 0, ⟨2⟩⟩ (by decide) (by decide)

end AccessCore
