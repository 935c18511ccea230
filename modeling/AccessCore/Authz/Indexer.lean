/-
  The membership indexer (`authz/application/membership-indexer.ts`,
  `authz/infrastructure/persistence/drizzle-membership-index.ts`).

  A tick reads the stored cursor, tries the lock, reads the current revision and a page of the
  changelog, and recomputes every organization that changed: it reads its tuples, its namespaces and
  its referenced usersets, flattens them, and replaces the sets of the index.  At the end it writes
  the cursor and commits.

  Any number of ticks run at once.  Each is a transaction whose statements see what is committed
  when they run, and what the tick has written itself; writers commit in between.  What a tick
  writes is kept aside until it commits, and only the holder of the lock gets as far as writing.
  The lock is released when the transaction ends, by its commit or by an error.  The ticks may have
  different page sizes and bounds.
-/
import AccessCore.Authz.Tenancy
import AccessCore.Authz.Watch

namespace AccessCore

variable {dateParse : String → Option Int}

/-! ## What a tick writes -/

/-- The statements of `replace`, of `remove` and of `writeCursor`. -/
inductive IndexWrite where
  | remove (orgId : OrgId) (set : MembershipSetRef)
  | replace (orgId : OrgId) (set : MembershipSetRef) (members : List FlatMember)
      (validAt : Revision)
  | writeCursor (revision : Revision)

def IndexWrite.apply (db : Database dateParse) : IndexWrite → Database dateParse
  | .remove orgId set => db.removeSet orgId set
  | .replace orgId set members validAt => db.replaceSet orgId set members validAt
  | .writeCursor revision => db.writeCursor revision

/-- The tables as a tick sees them that has made these writes. -/
def Database.applyAll (db : Database dateParse) (writes : List IndexWrite) : Database dateParse :=
  writes.foldl IndexWrite.apply db

/-- `setKey`. -/
def setKey (set : MembershipSetRef) : String := nodeKey set.object set.relation

/-- `wanted`: the referenced sets that are monotonic, with their members. -/
def wantedSets (snapshot : EvaluationSnapshot) (usersets : List MembershipSetRef) :
    OrderedMap String (MembershipSetRef × List FlatMember) :=
  usersets.foldl (fun wanted set =>
    let flattened := flattenSet set.object set.relation snapshot
    if flattened.monotonic then OrderedMap.set wanted (setKey set) (set, flattened.members)
    else wanted) []

/-- The writes of `reindexOrg`, when the index has the sets `existing`. -/
def reindexWrites (orgId : OrgId) (validAt : Revision)
    (wanted : OrderedMap String (MembershipSetRef × List FlatMember))
    (existing : List MembershipSetRef) : List IndexWrite :=
  (existing.filter fun set => (OrderedMap.get? wanted (setKey set)).isNone).map
      (IndexWrite.remove orgId) ++
    wanted.map fun e => .replace orgId e.2.1 e.2.2 validAt

/-! ## Ticks -/

structure MembershipIndexerOptions where
  changePageSize : Nat
  maxTuplesPerOrg : Nat

/-- The next statement of a tick: it tries the lock, reads the current revision, the page, the
organizations with namespace changes; takes the next organization and reads its tuples, its
namespaces, its referenced usersets, its sets. -/
inductive TickStage where
  | locking (cursor : Revision)
  | reading (cursor : Revision)
  | paging (cursor high : Revision)
  | listing (cursor upTo : Revision) (changes : List TupleChange)
  | reindexing (upTo : Revision) (orgs : List OrgId)
  | loading (upTo : Revision) (orgs : List OrgId) (orgId : OrgId) (tuples : List RelationTuple)
  | flattening (upTo : Revision) (orgs : List OrgId) (orgId : OrgId)
      (snapshot : EvaluationSnapshot)
  | sweeping (upTo : Revision) (orgs : List OrgId) (orgId : OrgId)
      (wanted : OrderedMap String (MembershipSetRef × List FlatMember))

/-- A transaction of `runOnce`, with what it has written. -/
structure Tick where
  stage : TickStage
  written : List IndexWrite

/-- The committed tables, the tick that holds the lock, and the ticks that run. -/
structure Indexers (dateParse : String → Option Int) where
  db : Database dateParse
  holder : Option Nat
  ticks : Nat → Option Tick

/-- A writer commits, a tick starts, a tick runs its next statement, a tick fails. -/
inductive IndexerStep where
  | write (operation : AdminOperation) (skipped : Nat)
  | start (id : Nat)
  | next (id : Nat)
  | abort (id : Nat)

/-- The revision that a page brings the index up to. -/
def pageEnd (pageSize : Nat) (cursor high : Revision) (changes : List TupleChange) : Revision :=
  let last := (changes.getLast?.map (·.revision)).getD cursor
  if changes.length = pageSize then last else ⟨max high.value last.value⟩

namespace Indexers

def initial : Indexers dateParse := ⟨Database.empty, none, fun _ => none⟩

/-- A tick goes on. -/
def setTick (s : Indexers dateParse) (id : Nat) (tick : Tick) : Indexers dateParse :=
  { s with ticks := fun i => if i = id then some tick else s.ticks i }

/-- A tick ends, and with it its hold on the lock. -/
def finish (s : Indexers dateParse) (id : Nat) : Indexers dateParse :=
  { s with
    holder := if s.holder = some id then none else s.holder
    ticks := fun i => if i = id then none else s.ticks i }

section Run

variable (collation : String → String → Bool) (options : Nat → MembershipIndexerOptions)

/-- The next statement of a tick. -/
def next (s : Indexers dateParse) (id : Nat) (tick : Tick) : Indexers dateParse :=
  match tick.stage with
  | .locking cursor =>
    if s.holder.isSome then s.finish id
    else { s.setTick id { tick with stage := .reading cursor } with holder := some id }
  | .reading cursor => s.setTick id { tick with stage := .paging cursor s.db.current }
  | .paging cursor high =>
    let changes := s.db.changesSinceAll collation cursor (options id).changePageSize
    let upTo := pageEnd (options id).changePageSize cursor high changes
    if upTo.value ≤ cursor.value then s.finish id
    else s.setTick id { tick with stage := .listing cursor upTo changes }
  | .listing cursor upTo changes =>
    let orgs := changes.map (·.orgId) ++ s.db.listOrgsWithNamespaceChanges cursor upTo
    s.setTick id { tick with stage := .reindexing upTo orgs.eraseDups }
  | .reindexing upTo [] =>
    { s.finish id with db := s.db.applyAll (tick.written ++ [.writeCursor upTo]) }
  | .reindexing upTo (orgId :: orgs) =>
    let tuples := s.db.listTuples orgId collation ((options id).maxTuplesPerOrg + 1)
    if (options id).maxTuplesPerOrg < tuples.length then
      s.setTick id { tick with stage := .reindexing upTo orgs }
    else s.setTick id { tick with stage := .loading upTo orgs orgId tuples }
  | .loading upTo orgs orgId tuples =>
    let snapshot : EvaluationSnapshot :=
      ⟨NamespaceRegistry.of (s.db.listByOrg orgId collation), TupleIndex.of orgId tuples, none⟩
    s.setTick id { tick with stage := .flattening upTo orgs orgId snapshot }
  | .flattening upTo orgs orgId snapshot =>
    let wanted := wantedSets snapshot (s.db.listReferencedUsersets orgId collation)
    s.setTick id { tick with stage := .sweeping upTo orgs orgId wanted }
  | .sweeping upTo orgs orgId wanted =>
    let existing := (s.db.applyAll tick.written).listSets orgId
    s.setTick id ⟨.reindexing upTo orgs, tick.written ++ reindexWrites orgId upTo wanted existing⟩

/-- One step; one that cannot happen changes nothing. -/
def step (s : Indexers dateParse) : IndexerStep → Indexers dateParse
  | .write operation skipped =>
    { s with db := operation.run ⟨s.db.current.value + 1 + skipped⟩ s.db }
  | .start id =>
    match s.ticks id with
    | some _ => s
    | none => s.setTick id ⟨.locking s.db.readCursor, []⟩
  | .next id =>
    match s.ticks id with
    | some tick => s.next collation options id tick
    | none => s
  | .abort id => s.finish id

def run (s : Indexers dateParse) (steps : List IndexerStep) : Indexers dateParse :=
  steps.foldl (step collation options) s

end Run

end Indexers

/-! ## What writers and ticks leave alone -/

namespace Database

/-- The index is as it was. -/
structure SameIndex (db db' : Database dateParse) : Prop where
  membershipSets : db'.membershipSets = db.membershipSets
  memberships : db'.memberships = db.memberships
  indexCursor : db'.indexCursor = db.indexCursor

theorem SameIndex.refl (db : Database dateParse) : SameIndex db db := ⟨rfl, rfl, rfl⟩

/-- A writer leaves the index as it is. -/
theorem run_sameIndex (db : Database dateParse) (operation : AdminOperation) (r : Revision) :
    SameIndex db (operation.run r db) := by
  cases operation with
  | writeTuple command recordedAt =>
    show SameIndex db (AdminOperation.committed db
      (RelationTupleWriter.write command recordedAt r db))
    unfold RelationTupleWriter.write
    cases RelationTuple.write command.orgId command.object command.relation command.subject r
        recordedAt with
    | error message => exact SameIndex.refl db
    | ok tuple => exact ⟨rfl, rfl, rfl⟩
  | revokeTuple command recordedAt =>
    show SameIndex db (RelationTupleWriter.revoke command recordedAt r db).2
    unfold RelationTupleWriter.revoke
    dsimp only
    split_ifs
    · exact ⟨rfl, rfl, rfl⟩
    · exact ⟨rfl, rfl, rfl⟩
  | defineNamespace command createdAt =>
    show SameIndex db (AdminOperation.committed db
      (NamespaceConfigWriter.define command createdAt r db))
    unfold NamespaceConfigWriter.define
    split_ifs
    · exact SameIndex.refl db
    · cases NamespaceConfig.create command.config with
      | error error => exact SameIndex.refl db
      | ok config => exact ⟨rfl, rfl, rfl⟩
  | writePolicy command =>
    show SameIndex db (AdminOperation.committed db (PolicyWriter.write command r db))
    unfold PolicyWriter.write
    split
    · exact SameIndex.refl db
    · exact ⟨rfl, rfl, rfl⟩
  | deletePolicy orgId id => exact ⟨rfl, rfl, rfl⟩

/-- What a tick reads is as it was. -/
structure SameStore (db db' : Database dateParse) : Prop where
  revisions : db'.revisions = db.revisions
  tuples : db'.tuples = db.tuples
  changelog : db'.changelog = db.changelog
  definitions : db'.definitions = db.definitions

/-- A tick writes nothing but the index. -/
theorem applyAll_sameStore (db : Database dateParse) (writes : List IndexWrite) :
    SameStore db (db.applyAll writes) := by
  induction writes generalizing db with
  | nil => exact ⟨rfl, rfl, rfl, rfl⟩
  | cons w writes ih =>
    have hfirst : SameStore db (w.apply db) := by
      cases w with
      | remove orgId set => exact ⟨rfl, rfl, rfl, rfl⟩
      | replace orgId set members validAt => exact ⟨rfl, rfl, rfl, rfl⟩
      | writeCursor revision => exact ⟨rfl, rfl, rfl, rfl⟩
    obtain ⟨hrevisions, htuples, hchangelog, hdefinitions⟩ := ih (w.apply db)
    exact ⟨hrevisions.trans hfirst.revisions, htuples.trans hfirst.tuples,
      hchangelog.trans hfirst.changelog, hdefinitions.trans hfirst.definitions⟩

/-- The last write of a tick is its cursor. -/
theorem readCursor_applyAll (db : Database dateParse) (writes : List IndexWrite) (r : Revision) :
    (db.applyAll (writes ++ [.writeCursor r])).readCursor = r := by
  unfold applyAll
  rw [List.foldl_append]
  rfl

/-! ## The sets of the index -/

/-- After `replace`, the set has its new stamp, and the others are as they were. -/
theorem mem_sets_replaceSet {db : Database dateParse} {orgId : OrgId} {set : MembershipSetRef}
    {members : List FlatMember} {validAt : Revision} {row : MembershipSetRow}
    (h : row ∈ (db.replaceSet orgId set members validAt).membershipSets.rows) :
    row = ⟨orgId, set, validAt⟩ ∨
      row ∈ db.membershipSets.rows ∧ setRowKey row ≠ (orgId, set) := by
  have hkeeps : Table.KeepsKey setRowKey fun old new : MembershipSetRow =>
      { old with validAtRevision := new.validAtRevision } := fun _ _ hkey => hkey
  have hget : (db.membershipSets.upsert _ hkeeps ⟨orgId, set, validAt⟩).get (setRowKey row) =
      some row := Table.get_of_mem h
  rw [Table.get_upsert] at hget
  split_ifs at hget with hkey
  · left
    cases hold : db.membershipSets.get (setRowKey row) with
    | none =>
      rw [hold] at hget
      exact (Option.some.inj hget).symm
    | some old =>
      rw [hold] at hget
      obtain ⟨-, holdKey⟩ := Table.mem_of_get hold
      obtain ⟨horg, hset⟩ := Prod.mk.inj (holdKey.trans hkey)
      have hrow : (⟨old.orgId, old.set, validAt⟩ : MembershipSetRow) = row := Option.some.inj hget
      rw [← hrow]
      exact congrArg₂ (fun o t => (⟨o, t, validAt⟩ : MembershipSetRow)) horg hset
  · exact Or.inr ⟨(Table.mem_of_get hget).1, hkey⟩

theorem mem_sets_removeSet {db : Database dateParse} {orgId : OrgId} {set : MembershipSetRef}
    {row : MembershipSetRow} (h : row ∈ (db.removeSet orgId set).membershipSets.rows) :
    row ∈ db.membershipSets.rows ∧ setRowKey row ≠ (orgId, set) := by
  obtain ⟨hrow, hkept⟩ := List.mem_filter.mp h
  refine ⟨hrow, fun hkey => ?_⟩
  obtain ⟨horg, hset⟩ := Prod.mk.inj hkey
  simp [horg, hset] at hkept

/-- A set of the index has the stamp that it had before the writes, or one that they gave it. -/
theorem mem_sets_applyAll {writes : List IndexWrite} {db : Database dateParse}
    {row : MembershipSetRow} (h : row ∈ (db.applyAll writes).membershipSets.rows) :
    row ∈ db.membershipSets.rows ∨
      ∃ members, .replace row.orgId row.set members row.validAtRevision ∈ writes := by
  induction writes generalizing db with
  | nil => exact Or.inl h
  | cons w writes ih =>
    have hrest : row ∈ ((w.apply db).applyAll writes).membershipSets.rows := h
    rcases ih hrest with hrow | ⟨members, hmem⟩
    · cases w with
      | remove orgId set => exact Or.inl (mem_sets_removeSet hrow).1
      | replace orgId set members validAt =>
        rcases mem_sets_replaceSet hrow with rfl | ⟨hold, -⟩
        · exact Or.inr ⟨members, List.mem_cons_self⟩
        · exact Or.inl hold
      | writeCursor revision => exact Or.inl hrow
    · exact Or.inr ⟨members, List.mem_cons_of_mem _ hmem⟩

end Database

/-! ## The bound on revisions -/

/-- The revisions that a tick has read or computed. -/
def TickStage.revisions : TickStage → List Revision
  | .locking cursor => [cursor]
  | .reading cursor => [cursor]
  | .paging cursor high => [cursor, high]
  | .listing cursor upTo _ => [cursor, upTo]
  | .reindexing upTo _ => [upTo]
  | .loading upTo _ _ _ => [upTo]
  | .flattening upTo _ _ _ => [upTo]
  | .sweeping upTo _ _ _ => [upTo]

theorem mem_changesSinceAll {db : Database dateParse} {collation : String → String → Bool}
    {cursor : Revision} {limit : Nat} {change : TupleChange}
    (h : change ∈ db.changesSinceAll collation cursor limit) :
    change ∈ db.changelog ∧ cursor.value < change.revision.value := by
  unfold Database.changesSinceAll at h
  have hsorted := (List.mem_insertionSort _).mp (List.mem_of_mem_take h)
  simpa using hsorted

/-- A page ends at the cursor, at the current revision, or at an entry of the changelog. -/
theorem pageEnd_le {pageSize : Nat} {cursor high bound : Revision} {changes : List TupleChange}
    (hcursor : cursor.value ≤ bound.value) (hhigh : high.value ≤ bound.value)
    (hchanges : ∀ c ∈ changes, c.revision.value ≤ bound.value) :
    (pageEnd pageSize cursor high changes).value ≤ bound.value := by
  have hlast : ((changes.getLast?.map (·.revision)).getD cursor).value ≤ bound.value := by
    cases hlast : changes.getLast? with
    | none => exact hcursor
    | some c => exact hchanges c (List.mem_of_getLast? hlast)
  unfold pageEnd
  dsimp only
  split_ifs
  · exact hlast
  · exact Nat.max_le.mpr ⟨hhigh, hlast⟩

namespace Indexers

variable {s : Indexers dateParse} {id : Nat} {tick : Tick}

/-- No revision that is stored or held by a tick is above the current one. -/
structure Ok (s : Indexers dateParse) : Prop where
  committed : s.db.CommitOrdered
  cursor : s.db.readCursor.value ≤ s.db.current.value
  ticks : ∀ id tick, s.ticks id = some tick →
    ∀ r ∈ tick.stage.revisions, r.value ≤ s.db.current.value

theorem Ok.initial : (Indexers.initial : Indexers dateParse).Ok where
  committed := ⟨.nil, fun change hchange => absurd hchange List.not_mem_nil⟩
  cursor := le_refl _
  ticks id tick h := by cases h

theorem Ok.setTick (h : s.Ok) (holder : Option Nat) {tick : Tick}
    (htick : ∀ r ∈ tick.stage.revisions, r.value ≤ s.db.current.value) :
    ({ s.setTick id tick with holder := holder } : Indexers dateParse).Ok where
  committed := h.committed
  cursor := h.cursor
  ticks i t ht := by
    have hcases : (if i = id then some tick else s.ticks i) = some t := ht
    split_ifs at hcases with hi
    · obtain rfl := Option.some.inj hcases
      exact htick
    · exact h.ticks i t hcases

theorem Ok.finish (h : s.Ok) : (s.finish id).Ok where
  committed := h.committed
  cursor := h.cursor
  ticks i t ht := by
    have hcases : (if i = id then none else s.ticks i) = some t := ht
    split_ifs at hcases
    exact h.ticks i t hcases

/-- The step lemma for a writer: the current revision grows. -/
theorem Ok.write (h : s.Ok) (operation : AdminOperation) (skipped : Nat) :
    ({ s with db := operation.run ⟨s.db.current.value + 1 + skipped⟩ s.db } :
      Indexers dateParse).Ok := by
  have hnext : s.db.current.value < s.db.current.value + 1 + skipped := by omega
  obtain ⟨hcommitted, hcurrent, -⟩ :=
    h.committed.write operation (r := ⟨s.db.current.value + 1 + skipped⟩) hnext
  have hindex := Database.run_sameIndex s.db operation ⟨s.db.current.value + 1 + skipped⟩
  constructor
  · exact hcommitted
  · unfold Database.readCursor
    rw [hindex.indexCursor]
    exact le_trans h.cursor hcurrent
  · intro i t ht r hr
    exact le_trans (h.ticks i t ht r hr) hcurrent

/-- The tables a tick commits. -/
theorem Ok.commit (h : s.Ok) {written : List IndexWrite} {upTo : Revision}
    (hupTo : upTo.value ≤ s.db.current.value) :
    ({ s.finish id with db := s.db.applyAll (written ++ [.writeCursor upTo]) } :
      Indexers dateParse).Ok := by
  have hstore := s.db.applyAll_sameStore (written ++ [.writeCursor upTo])
  have hcurrent : (s.db.applyAll (written ++ [.writeCursor upTo])).current = s.db.current := by
    unfold Database.current
    rw [hstore.revisions]
  constructor
  · refine ⟨?_, ?_⟩
    · show CommitLog.Ordered _ (s.db.applyAll _).changelog
      rw [hstore.changelog]
      exact h.committed.ordered
    · show ∀ change ∈ (s.db.applyAll _).changelog, _ ≤ (s.db.applyAll _).current.value
      rw [hstore.changelog, hcurrent]
      exact h.committed.within
  · show (s.db.applyAll _).readCursor.value ≤ (s.db.applyAll _).current.value
    rw [Database.readCursor_applyAll, hcurrent]
    exact hupTo
  · intro i t ht r hr
    show r.value ≤ (s.db.applyAll _).current.value
    rw [hcurrent]
    exact h.finish.ticks i t ht r hr

variable (collation : String → String → Bool) (options : Nat → MembershipIndexerOptions)

theorem Ok.next (h : s.Ok) (htick : s.ticks id = some tick) :
    (s.next collation options id tick).Ok := by
  have hstage := h.ticks id tick htick
  obtain ⟨stage, written⟩ := tick
  unfold Indexers.next
  cases stage with
  | locking cursor =>
    dsimp only
    split_ifs
    · exact h.finish
    · exact h.setTick (some id) hstage
  | reading cursor =>
    apply h.setTick
    intro r hr
    rcases List.mem_cons.mp hr with rfl | hr
    · exact hstage r List.mem_cons_self
    · rw [List.mem_singleton.mp hr]
  | paging cursor high =>
    have hcursor : cursor.value ≤ s.db.current.value := hstage cursor List.mem_cons_self
    have hhigh : high.value ≤ s.db.current.value := hstage high (by simp [TickStage.revisions])
    have hpage : ∀ c ∈ s.db.changesSinceAll collation cursor (options id).changePageSize,
        c.revision.value ≤ s.db.current.value := by
      intro c hc
      exact h.committed.within c (mem_changesSinceAll hc).1
    have hend : (pageEnd (options id).changePageSize cursor high
        (s.db.changesSinceAll collation cursor (options id).changePageSize)).value ≤
          s.db.current.value := pageEnd_le hcursor hhigh hpage
    dsimp only
    split_ifs
    · exact h.finish
    · apply h.setTick
      intro r hr
      rcases List.mem_cons.mp hr with rfl | hr
      · exact hcursor
      · rw [List.mem_singleton.mp hr]
        exact hend
  | listing cursor upTo changes =>
    apply h.setTick
    intro r hr
    exact hstage r (List.mem_cons_of_mem _ hr)
  | reindexing upTo orgs =>
    cases orgs with
    | nil => exact h.commit (hstage upTo List.mem_cons_self)
    | cons orgId orgs =>
      dsimp only
      split_ifs
      · exact h.setTick s.holder hstage
      · exact h.setTick s.holder hstage
  | loading upTo orgs orgId tuples => exact h.setTick s.holder hstage
  | flattening upTo orgs orgId snapshot => exact h.setTick s.holder hstage
  | sweeping upTo orgs orgId wanted => exact h.setTick s.holder hstage

theorem Ok.step (h : s.Ok) (e : IndexerStep) : (s.step collation options e).Ok := by
  cases e with
  | write operation skipped => exact h.write operation skipped
  | start id =>
    dsimp only [Indexers.step]
    cases htick : s.ticks id with
    | some tick => exact h
    | none =>
      refine h.setTick s.holder ?_
      intro r hr
      rw [List.mem_singleton.mp hr]
      exact h.cursor
  | next id =>
    dsimp only [Indexers.step]
    cases htick : s.ticks id with
    | some tick => exact h.next collation options htick
    | none => exact h
  | abort id => exact h.finish

theorem Ok.run (h : s.Ok) (steps : List IndexerStep) :
    (s.run collation options steps).Ok := by
  induction steps generalizing s with
  | nil => exact h
  | cons e steps ih => exact ih (h.step collation options e)

/-! ## A small organization -/

/-- A tuple is written for the organization. -/
def viewersWrite (object : EntityRef) (relation : String) (subject : SubjectRef) : IndexerStep :=
  .write (.writeTuple ⟨acme, object, relation, subject⟩ 0) 0

/-- The members of its group. -/
def viewersGroup : OrgId × MembershipSetRef := (acme, ⟨⟨"group", "g"⟩, "member"⟩)

/-- They may view a document. -/
def viewersGrant : IndexerStep :=
  viewersWrite ⟨"doc", "report"⟩ "viewer" (.userset ⟨"group", "g"⟩ "member")

/-- Ann is one of them. -/
def viewersMember : IndexerStep :=
  viewersWrite ⟨"group", "g"⟩ "member" (.subject ⟨"user", "ann"⟩)

/-- The statements of a tick that has one organization to reindex. -/
def wholeTick (id : Nat) : List IndexerStep := List.replicate 9 (.next id)

end Indexers

end AccessCore
