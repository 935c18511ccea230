/-
  What the writes of a tick leave in the index (`replace` and `remove` of
  `authz/infrastructure/persistence/drizzle-membership-index.ts`, `reindexOrg` of
  `authz/application/membership-indexer.ts`).

  A set of the index is the row that says when it was valid and the rows of its members.  `replace`
  and `remove` are exact on both (`mem_sets_replaceSet_iff`, `mem_members_replaceSet_iff`), and
  touch the rows of one organization only.  So what `reindexOrg` leaves of an organization is the
  sets that it wanted, with their members and one stamp (`exact_reindex`), whatever the index had
  before.

  `Exact` is the purpose of the index: the sets that some tuple refers to and that have no
  exclusion, with the members that flattening finds.
-/
import AccessCore.Authz.Flattening
import AccessCore.Authz.IndexFreshness

namespace AccessCore

variable {dateParse : String → Option Int} {db db' : Database dateParse} {orgId org : OrgId}
  {collation : String → String → Bool} {set : MembershipSetRef} {members : List FlatMember}
  {validAt : Revision}

/-! ## One write -/

namespace Database

/-- After `replace`, the set has its new stamp, and the others are as they were. -/
theorem mem_sets_replaceSet_iff {row : MembershipSetRow} :
    row ∈ (db.replaceSet orgId set members validAt).membershipSets.rows ↔
      row = ⟨orgId, set, validAt⟩ ∨
        row ∈ db.membershipSets.rows ∧ setRowKey row ≠ (orgId, set) := by
  constructor
  · exact mem_sets_replaceSet
  · have hkeeps : Table.KeepsKey setRowKey fun old new : MembershipSetRow =>
        { old with validAtRevision := new.validAtRevision } := fun _ _ hkey => hkey
    have hget : ∀ k, (db.membershipSets.upsert _ hkeeps ⟨orgId, set, validAt⟩).get k = _ :=
      fun k => Table.get_upsert hkeeps k
    rintro (rfl | ⟨hrow, hkey⟩)
    · -- The row of the key is the merged one, and it has the key and the new stamp.
      have hself := (hget (orgId, set)).trans (if_pos rfl)
      obtain ⟨hmem, -⟩ := Table.mem_of_get hself
      have hrow : _ ∈ (db.replaceSet orgId set members validAt).membershipSets.rows := hmem
      rcases mem_sets_replaceSet hrow with hnew | ⟨-, hother⟩
      · rw [hnew] at hmem
        exact hmem
      · exact absurd (Table.mem_of_get hself).2 hother
    · have hold := (hget (setRowKey row)).trans (if_neg hkey)
      rw [Table.get_of_mem hrow] at hold
      exact (Table.mem_of_get hold).1

theorem mem_sets_removeSet_iff {row : MembershipSetRow} :
    row ∈ (db.removeSet orgId set).membershipSets.rows ↔
      row ∈ db.membershipSets.rows ∧ setRowKey row ≠ (orgId, set) := by
  refine ⟨mem_sets_removeSet, fun ⟨hrow, hkey⟩ => List.mem_filter.mpr ⟨hrow, ?_⟩⟩
  have hnot : ¬ (row.orgId = orgId ∧ row.set = set) := by
    rintro ⟨horg, hset⟩
    exact hkey (Prod.ext horg hset)
  simpa using not_and_or.mp hnot

theorem mem_deleteMembers_iff {row : MembershipRow} :
    row ∈ (db.deleteMembers orgId set).memberships.rows ↔
      row ∈ db.memberships.rows ∧ ¬ (row.orgId = orgId ∧ row.set = set) := by
  refine ⟨mem_deleteMembers, fun ⟨hrow, hnot⟩ => List.mem_filter.mpr ⟨hrow, ?_⟩⟩
  simpa using not_and_or.mp hnot

/-- Rows that are upserted under new keys are appended. -/
theorem rows_overwrites {rows : List MembershipRow}
    {table : Table MembershipRow _ membershipRowKey} (hkeys : (rows.map membershipRowKey).Nodup)
    (hfresh : ∀ row ∈ rows, table.get (membershipRowKey row) = none) :
    (rows.foldl (fun table row => table.upsert (fun _ new => new) (fun _ _ _ => rfl) row)
      table).rows = table.rows ++ rows := by
  induction rows generalizing table with
  | nil => exact (List.append_nil _).symm
  | cons new rows ih =>
    obtain ⟨hnew, hrest⟩ := List.nodup_cons.mp hkeys
    have hmerge : Table.KeepsKey membershipRowKey fun _ new : MembershipRow => new :=
      fun _ _ _ => rfl
    have hfirst : (table.upsert (fun _ new => new) hmerge new).rows = table.rows ++ [new] :=
      Table.rows_upsert_of_get_none hmerge (hfresh new List.mem_cons_self)
    have hlater : ∀ row ∈ rows, (table.upsert (fun _ new => new) hmerge new).get
        (membershipRowKey row) = none := by
      intro row hrow
      have hne : membershipRowKey row ≠ membershipRowKey new := by
        intro heq
        exact hnew (heq ▸ List.mem_map.mpr ⟨row, hrow, rfl⟩)
      rw [Table.get_upsert, if_neg hne]
      exact hfresh row (List.mem_cons_of_mem _ hrow)
    rw [List.foldl_cons, ih hrest hlater, hfirst, List.append_assoc]
    rfl

/-- The rows that `replace` inserts have different members. -/
theorem membershipRows_refs (orgId : OrgId) (set : MembershipSetRef) (members : List FlatMember) :
    ((membershipRows orgId set members).map (·.member)).Sublist (members.map (·.ref)) := by
  unfold membershipRows
  induction members with
  | nil => exact List.Sublist.refl _
  | cons member members ih =>
    rw [List.filterMap_cons]
    split
    · exact ih.cons _
    · next row hrow =>
      split_ifs at hrow with hwritable
      obtain rfl := Option.some.inj hrow
      exact ih.cons_cons _

/-- The members of a set that can be stored: each writable, and once. -/
def Storable (members : List FlatMember) : Prop :=
  (members.map (·.ref)).Nodup ∧ ∀ m ∈ members, assertWritableEntityRef m.ref = .ok ()

/-- After `replace`, the set has its new members, and the others what they had. -/
theorem mem_members_replaceSet_iff (hmembers : Storable members) {row : MembershipRow} :
    row ∈ (db.replaceSet orgId set members validAt).memberships.rows ↔
      (row.orgId = orgId ∧ row.set = set ∧ ⟨row.member, row.depth⟩ ∈ members) ∨
        row ∈ db.memberships.rows ∧ ¬ (row.orgId = orgId ∧ row.set = set) := by
  have hkeyed : ∀ row ∈ membershipRows orgId set members, row.orgId = orgId ∧ row.set = set ∧
      ⟨row.member, row.depth⟩ ∈ members := by
    intro row hrow
    obtain ⟨member, hmember, hrow⟩ := List.mem_filterMap.mp hrow
    split_ifs at hrow with hwritable
    obtain rfl := Option.some.inj hrow
    exact ⟨rfl, rfl, hmember⟩
  have hkeys : ((membershipRows orgId set members).map membershipRowKey).Nodup := by
    apply List.Nodup.of_map (·.2.2)
    rw [List.map_map]
    exact hmembers.1.sublist (membershipRows_refs orgId set members)
  have hfresh : ∀ row ∈ membershipRows orgId set members,
      (db.deleteMembers orgId set).memberships.get (membershipRowKey row) = none := by
    intro row hrow
    obtain ⟨horg, hset, -⟩ := hkeyed row hrow
    refine Table.get_eq_none.mpr fun old hold hkey => ?_
    have hrowKey : old.orgId = row.orgId ∧ old.set = row.set :=
      ⟨congrArg Prod.fst hkey, congrArg (fun k => k.2.1) hkey⟩
    exact (mem_deleteMembers hold).2 ⟨hrowKey.1.trans horg, hrowKey.2.trans hset⟩
  have hrows : (db.replaceSet orgId set members validAt).memberships.rows =
      (db.deleteMembers orgId set).memberships.rows ++ membershipRows orgId set members :=
    rows_overwrites hkeys hfresh
  rw [hrows, List.mem_append, mem_deleteMembers_iff, or_comm]
  refine or_congr_left ⟨hkeyed row, ?_⟩
  rintro ⟨rfl, rfl, hmember⟩
  refine List.mem_filterMap.mpr ⟨_, hmember, ?_⟩
  exact dif_pos row.writable

end Database

/-! ## The writes of one organization -/

namespace Database

theorem mem_sets_removes {sets : List MembershipSetRef} {row : MembershipSetRow} :
    row ∈ (db.applyAll (sets.map (IndexWrite.remove orgId))).membershipSets.rows ↔
      row ∈ db.membershipSets.rows ∧ ¬ (row.orgId = orgId ∧ row.set ∈ sets) := by
  induction sets generalizing db with
  | nil => simp [applyAll]
  | cons set sets ih =>
    have hrest : row ∈ (db.applyAll ((set :: sets).map
        (IndexWrite.remove orgId))).membershipSets.rows
        ↔ row ∈ (db.removeSet orgId set).membershipSets.rows ∧
          ¬ (row.orgId = orgId ∧ row.set ∈ sets) := ih
    rw [hrest, mem_sets_removeSet_iff, List.mem_cons]
    have hkey : setRowKey row = (orgId, set) ↔ row.orgId = orgId ∧ row.set = set := Prod.mk_inj
    rw [ne_eq, hkey, and_assoc, ← not_or, ← and_or_left]

theorem mem_members_removes {sets : List MembershipSetRef} {row : MembershipRow} :
    row ∈ (db.applyAll (sets.map (IndexWrite.remove orgId))).memberships.rows ↔
      row ∈ db.memberships.rows ∧ ¬ (row.orgId = orgId ∧ row.set ∈ sets) := by
  induction sets generalizing db with
  | nil => simp [applyAll]
  | cons set sets ih =>
    have hrest : row ∈ (db.applyAll ((set :: sets).map (IndexWrite.remove orgId))).memberships.rows
        ↔ row ∈ (db.removeSet orgId set).memberships.rows ∧
          ¬ (row.orgId = orgId ∧ row.set ∈ sets) := ih
    have hfirst : row ∈ (db.removeSet orgId set).memberships.rows ↔
        row ∈ db.memberships.rows ∧ ¬ (row.orgId = orgId ∧ row.set = set) := mem_deleteMembers_iff
    rw [hrest, hfirst, List.mem_cons, and_assoc, ← not_or, ← and_or_left]

variable {entries : List (String × MembershipSetRef × List FlatMember)}

theorem mem_sets_replaces {row : MembershipSetRow} :
    row ∈ (db.applyAll (entries.map fun e =>
      .replace orgId e.2.1 e.2.2 validAt)).membershipSets.rows
      ↔ (row.orgId = orgId ∧ row.validAtRevision = validAt ∧ ∃ e ∈ entries, e.2.1 = row.set) ∨
        row ∈ db.membershipSets.rows ∧ ¬ (row.orgId = orgId ∧ ∃ e ∈ entries, e.2.1 = row.set) := by
  induction entries generalizing db with
  | nil => simp [applyAll]
  | cons e entries ih =>
    have hfirst : db.applyAll ((e :: entries).map fun e => .replace orgId e.2.1 e.2.2 validAt) =
        (db.replaceSet orgId e.2.1 e.2.2 validAt).applyAll
          (entries.map fun e => .replace orgId e.2.1 e.2.2 validAt) := rfl
    rw [hfirst, ih, mem_sets_replaceSet_iff, List.exists_mem_cons_iff]
    have hkey : setRowKey row = (orgId, e.2.1) ↔ row.orgId = orgId ∧ e.2.1 = row.set := by
      rw [eq_comm (a := e.2.1)]
      exact Prod.mk_inj
    have hrow : row = ⟨orgId, e.2.1, validAt⟩ ↔
        row.orgId = orgId ∧ e.2.1 = row.set ∧ row.validAtRevision = validAt := by
      obtain ⟨rowOrg, rowSet, rowStamp⟩ := row
      rw [MembershipSetRow.mk.injEq, eq_comm (a := e.2.1)]
    rw [ne_eq, hkey, hrow]
    by_cases hown : row.orgId = orgId
    · by_cases hfirst : e.2.1 = row.set
      · by_cases hlater : ∃ e' ∈ entries, e'.2.1 = row.set
        · simp only [hown, hfirst, hlater, true_and, and_true, true_or,
            not_true_eq_false, and_false, or_false]
        · simp only [hown, hfirst, hlater, true_and, and_true, not_true_eq_false,
            and_false, or_false, not_false_eq_true, false_or]
      · simp only [hown, hfirst, true_and, false_and, false_or, not_false_eq_true, and_true]
    · simp only [hown, false_and, false_or, not_false_eq_true, and_true]

theorem mem_members_replaces (hstorable : ∀ e ∈ entries, Storable e.2.2)
    (hsets : (entries.map (·.2.1)).Nodup) {row : MembershipRow} :
    row ∈ (db.applyAll (entries.map fun e => .replace orgId e.2.1 e.2.2 validAt)).memberships.rows ↔
      (row.orgId = orgId ∧ ∃ e ∈ entries, e.2.1 = row.set ∧ ⟨row.member, row.depth⟩ ∈ e.2.2) ∨
        row ∈ db.memberships.rows ∧ ¬ (row.orgId = orgId ∧ ∃ e ∈ entries, e.2.1 = row.set) := by
  induction entries generalizing db with
  | nil => simp [applyAll]
  | cons e entries ih =>
    obtain ⟨hunlike, hothers⟩ := List.nodup_cons.mp hsets
    have hfirst : db.applyAll ((e :: entries).map fun e => .replace orgId e.2.1 e.2.2 validAt) =
        (db.replaceSet orgId e.2.1 e.2.2 validAt).applyAll
          (entries.map fun e => .replace orgId e.2.1 e.2.2 validAt) := rfl
    rw [hfirst, ih (fun e' he' => hstorable e' (List.mem_cons_of_mem _ he')) hothers,
      mem_members_replaceSet_iff (hstorable e List.mem_cons_self)]
    -- A later entry is for another set.
    have hlater : e.2.1 = row.set → ¬ ∃ e' ∈ entries, e'.2.1 = row.set := by
      rintro heq ⟨e', he', hset⟩
      exact hunlike (List.mem_map.mpr ⟨e', he', hset.trans heq.symm⟩)
    rw [List.exists_mem_cons_iff, List.exists_mem_cons_iff, eq_comm (a := row.set) (b := e.2.1)]
    by_cases hown : row.orgId = orgId
    · by_cases hset : e.2.1 = row.set
      · have hnone : ¬ ∃ e' ∈ entries, e'.2.1 = row.set ∧ ⟨row.member, row.depth⟩ ∈ e'.2.2 :=
          fun ⟨e', he', hsame, _⟩ => hlater hset ⟨e', he', hsame⟩
        simp only [hown, hset, hlater hset, hnone, true_and, and_false, and_true,
          or_false, false_or, not_true_eq_false, not_false_eq_true]
      · simp only [hown, hset, true_and, false_and, false_or, and_false,
          not_false_eq_true, and_true]
    · simp only [hown, false_and, false_or, not_false_eq_true, and_true]

end Database

/-! ## The wanted sets -/

theorem mem_distinct {relations : List String} {relation : String} :
    relation ∈ distinct relations ↔ relation ∈ relations := by
  unfold distinct
  induction relations using List.reverseRecOn with
  | nil => rfl
  | append_singleton relations last ih =>
    rw [List.foldl_append, List.mem_append, List.mem_singleton, ← ih]
    dsimp only [List.foldl_cons, List.foldl_nil]
    split_ifs with hseen
    · constructor
      · exact Or.inl
      · rintro (h | rfl)
        · exact h
        · exact hseen
    · rw [List.mem_append, List.mem_singleton]

/-- A tuple has the members of the set as its subject. -/
def Refers (tuples : List RelationTuple) (set : MembershipSetRef) : Prop :=
  ∃ tuple ∈ tuples, tuple.subject = .userset set.object set.relation

/-- What tuples refer to is writable. -/
theorem Refers.writable {tuples : List RelationTuple} (h : Refers tuples set) :
    WritableNode set.object set.relation := by
  obtain ⟨tuple, -, hsubject⟩ := h
  have hwritten := tuple.writableSubject
  rw [hsubject] at hwritten
  exact writableSubject_node hwritten

/-- **The referenced usersets** are those that some tuple refers to. -/
theorem mem_listReferencedUsersets :
    set ∈ db.listReferencedUsersets orgId collation ↔ Refers (db.tuplesOf orgId) set := by
  unfold Database.listReferencedUsersets
  rw [List.mem_filterMap]
  constructor
  · rintro ⟨text, htext, hparsed⟩
    rw [List.mem_insertionSort] at htext
    obtain ⟨htext, -⟩ := List.mem_filter.mp htext
    obtain ⟨tuple, htuple, rfl⟩ := List.mem_map.mp (mem_distinct.mp htext)
    rw [parseSubject_encodeSubject tuple.writableSubject] at hparsed
    refine ⟨tuple, htuple, ?_⟩
    cases hsubject : tuple.subject with
    | subject ref =>
      rw [hsubject] at hparsed
      cases hparsed
    | userset ref relation =>
      rw [hsubject] at hparsed
      obtain rfl := Option.some.inj hparsed
      rfl
  · rintro ⟨tuple, htuple, hsubject⟩
    refine ⟨encodeSubject tuple.subject, ?_, ?_⟩
    · rw [List.mem_insertionSort]
      refine List.mem_filter.mpr ⟨mem_distinct.mpr (List.mem_map.mpr ⟨tuple, htuple, rfl⟩), ?_⟩
      rw [hsubject]
      simp [encodeSubject, String.toList_append]
    · rw [parseSubject_encodeSubject tuple.writableSubject, hsubject]

/-- The sets an organization should have in the index: those that are referred to and have no
exclusion. -/
def WantedIn (orgId : OrgId) (tuples : List RelationTuple)
    (definitions : List NamespaceDefinition) (set : MembershipSetRef) : Prop :=
  Refers tuples set ∧
    (flattenSet set.object set.relation (reindexSnapshot orgId tuples definitions)).monotonic = true

/-- The members that they should have. -/
def membersIn (orgId : OrgId) (tuples : List RelationTuple)
    (definitions : List NamespaceDefinition) (set : MembershipSetRef) : List FlatMember :=
  (flattenSet set.object set.relation (reindexSnapshot orgId tuples definitions)).members

/-- `wanted` has the sets that the organization should have, each once, under its key and with its
members. -/
structure WantedFor (orgId : OrgId)
    (wanted : OrderedMap String (MembershipSetRef × List FlatMember))
    (tuples : List RelationTuple) (definitions : List NamespaceDefinition) : Prop where
  keys : (wanted.map (·.1)).Nodup
  keyed : ∀ e ∈ wanted, e.1 = setKey e.2.1
  sets : ∀ set, (∃ e ∈ wanted, e.2.1 = set) ↔ WantedIn orgId tuples definitions set
  members : ∀ e ∈ wanted, e.2.2 = membersIn orgId tuples definitions e.2.1

/-- Flattening finds writable members, each once. -/
theorem storable_flattenSet (object : EntityRef) (relation : String)
    (snapshot : EvaluationSnapshot) :
    Database.Storable (flattenSet object relation snapshot).members := by
  obtain ⟨hmembers, hnodup⟩ := flattenSet_shallowest object relation snapshot
  refine ⟨hnodup, fun m hm => ?_⟩
  have hcol : Collects snapshot object 0 (.node (object, relation)) [] false
      (collectMembers snapshot object relation 0 ⟨[], false⟩) :=
    collectMembers_gathers (n := (object, relation)) (Or.inl rfl) noneVisited false
  obtain ⟨V, ex, -, -, hg⟩ := hcol
  have hcollected : m ∈ (collectMembers snapshot object relation 0 ⟨[], false⟩).1 :=
    ((hmembers m).mp hm).1
  exact hg.within rule_within trivial m.ref ⟨m, hcollected, rfl⟩

/-- **What `wantedSets` collects** of usersets that are the referenced ones. -/
theorem wantedFor_wantedSets {tuples : List RelationTuple}
    {definitions : List NamespaceDefinition} {usersets : List MembershipSetRef}
    (husersets : ∀ set, set ∈ usersets ↔ Refers tuples set) :
    WantedFor orgId (wantedSets (reindexSnapshot orgId tuples definitions) usersets) tuples
      definitions := by
  -- The loop, for any part of the usersets that it has gone through.
  have hloop : ∀ done : List MembershipSetRef, (∀ set ∈ done, Refers tuples set) →
      let wanted := wantedSets (reindexSnapshot orgId tuples definitions) done
      (wanted.map (·.1)).Nodup ∧ (∀ e ∈ wanted, e.1 = setKey e.2.1 ∧ e.2.1 ∈ done) ∧
        ∀ set ∈ done, (flattenSet set.object set.relation
          (reindexSnapshot orgId tuples definitions)).monotonic = true →
            ∃ e ∈ wanted, e.2.1 = set := by
    intro done
    induction done using List.reverseRecOn with
    | nil =>
      intro _
      exact ⟨List.nodup_nil, fun e he => absurd he List.not_mem_nil,
        fun set hset => absurd hset List.not_mem_nil⟩
    | append_singleton done last ih =>
      intro hrefers
      have hlast : Refers tuples last := hrefers last (by simp)
      obtain ⟨hkeys, hkeyed, hcovers⟩ :=
        ih fun set hset => hrefers set (List.mem_append_left _ hset)
      dsimp only
      rw [wantedSets_append]
      split_ifs with hmonotonic
      · refine ⟨OrderedMap.nodup_set hkeys _ _, fun e he => ?_, fun set hset hset' => ?_⟩
        · rcases OrderedMap.mem_set he with hold | rfl
          · exact ⟨(hkeyed e hold).1, List.mem_append_left _ (hkeyed e hold).2⟩
          · exact ⟨rfl, List.mem_append_right _ (List.mem_singleton_self _)⟩
        · rcases List.mem_append.mp hset with hset | hset
          · obtain ⟨e, he, rfl⟩ := hcovers set hset hset'
            by_cases hkey : e.1 = setKey last
            · have hsame : nodeKey last.object last.relation =
                  nodeKey e.2.1.object e.2.1.relation := hkey.symm.trans (hkeyed e he).1
              obtain ⟨hobject, hrelation⟩ := nodeKey_inj hlast.writable hsame
              refine ⟨_, OrderedMap.mem_set_self _ _ _, ?_⟩
              show last = e.2.1
              cases last
              cases hold : e.2.1
              simp_all
            · exact ⟨e, OrderedMap.mem_set_of_mem he hkey, rfl⟩
          · rw [List.mem_singleton.mp hset]
            exact ⟨_, OrderedMap.mem_set_self _ _ _, rfl⟩
      · refine ⟨hkeys, fun e he => ⟨(hkeyed e he).1, List.mem_append_left _ (hkeyed e he).2⟩,
          fun set hset hset' => ?_⟩
        rcases List.mem_append.mp hset with hset | hset
        · exact hcovers set hset hset'
        · rw [List.mem_singleton.mp hset] at hset'
          exact absurd hset' hmonotonic
  obtain ⟨hkeys, hkeyed, hcovers⟩ := hloop usersets fun set hset => (husersets set).mp hset
  refine ⟨hkeys, fun e he => (hkeyed e he).1, fun set => ⟨?_, ?_⟩, fun e he =>
    (mem_wantedSets he).2⟩
  · rintro ⟨e, he, rfl⟩
    exact ⟨(husersets _).mp (hkeyed e he).2, (mem_wantedSets he).1⟩
  · rintro ⟨hrefers, hmonotonic⟩
    exact hcovers set ((husersets set).mpr hrefers) hmonotonic

namespace WantedFor

variable {wanted : OrderedMap String (MembershipSetRef × List FlatMember)}
  {tuples : List RelationTuple} {definitions : List NamespaceDefinition}

theorem sets_nodup (h : WantedFor orgId wanted tuples definitions) :
    (wanted.map (·.2.1)).Nodup := by
  have hkeys : (wanted.map (·.2.1)).map setKey = wanted.map (·.1) := by
    rw [List.map_map]
    exact List.map_congr_left fun e he => (h.keyed e he).symm
  have hnodup := h.keys
  rw [← hkeys] at hnodup
  exact hnodup.of_map _

/-- A set that `wanted` has no key for is not wanted, and the others are. -/
theorem isNone_iff (h : WantedFor orgId wanted tuples definitions) :
    (OrderedMap.get? wanted (setKey set)).isNone = true ↔
      ¬ WantedIn orgId tuples definitions set := by
  rw [← h.sets set]
  cases hget : OrderedMap.get? wanted (setKey set) with
  | none =>
    refine iff_of_true rfl ?_
    rintro ⟨e, he, rfl⟩
    have hself := OrderedMap.get?_of_mem h.keys he
    rw [h.keyed e he, hget] at hself
    cases hself
  | some value =>
    refine iff_of_false Bool.false_ne_true (not_not.mpr ?_)
    have hmem := OrderedMap.mem_of_get? hget
    have hwanted := (h.sets value.1).mp ⟨_, hmem, rfl⟩
    obtain ⟨hobject, hrelation⟩ := nodeKey_inj hwanted.1.writable (h.keyed _ hmem).symm
    refine ⟨_, hmem, ?_⟩
    cases set
    cases hvalue : value.1
    simp_all

end WantedFor

/-! ## The rows of one organization -/

/-- Between two stores an organization has the same rows, those of the index included. -/
structure OwnRows (db db' : Database dateParse) (orgId : OrgId) : Prop where
  tuples : db'.tuplesOf orgId = db.tuplesOf orgId
  definitions : (db'.definitions.select fun d => d.orgId = orgId) =
    db.definitions.select fun d => d.orgId = orgId
  changelog : (db'.changelog.filter fun c => c.orgId = orgId) =
    db.changelog.filter fun c => c.orgId = orgId
  sets : ∀ row : MembershipSetRow, row.orgId = orgId →
    (row ∈ db'.membershipSets.rows ↔ row ∈ db.membershipSets.rows)
  members : ∀ row : MembershipRow, row.orgId = orgId →
    (row ∈ db'.memberships.rows ↔ row ∈ db.memberships.rows)

namespace OwnRows

theorem refl (db : Database dateParse) (orgId : OrgId) : OwnRows db db orgId :=
  ⟨rfl, rfl, rfl, fun _ _ => Iff.rfl, fun _ _ => Iff.rfl⟩

theorem trans {db'' : Database dateParse} (h : OwnRows db db' orgId) (h' : OwnRows db' db'' orgId) :
    OwnRows db db'' orgId :=
  ⟨h'.tuples.trans h.tuples, h'.definitions.trans h.definitions, h'.changelog.trans h.changelog,
    fun row horg => (h'.sets row horg).trans (h.sets row horg),
    fun row horg => (h'.members row horg).trans (h.members row horg)⟩

theorem version (h : OwnRows db db' orgId) :
    db'.organizationVersion orgId = db.organizationVersion orgId := by
  unfold Database.organizationVersion
  rw [h.changelog, h.definitions]

theorem allTuples (h : OwnRows db db' orgId) :
    db'.allTuples orgId collation = db.allTuples orgId collation := by
  unfold Database.allTuples Database.listTuples
  rw [h.tuples]

theorem listByOrg (h : OwnRows db db' orgId) :
    db'.listByOrg orgId collation = db.listByOrg orgId collation := by
  unfold Database.listByOrg
  rw [h.definitions]

theorem mem_listSets (h : OwnRows db db' orgId) :
    set ∈ db'.listSets orgId ↔ set ∈ db.listSets orgId := by
  unfold Database.listSets
  simp only [List.mem_map, Table.select, List.mem_filter, decide_eq_true_eq]
  constructor
  · rintro ⟨row, ⟨hrow, horg⟩, hset⟩
    exact ⟨row, ⟨(h.sets row horg).mp hrow, horg⟩, hset⟩
  · rintro ⟨row, ⟨hrow, horg⟩, hset⟩
    exact ⟨row, ⟨(h.sets row horg).mpr hrow, horg⟩, hset⟩

theorem stores (h : OwnRows db db' orgId) {m : FlatMember} :
    db'.Stores orgId set m ↔ db.Stores orgId set m := by
  constructor
  · rintro ⟨row, hrow, horg, hset, hm⟩
    exact ⟨row, (h.members row horg).mp hrow, horg, hset, hm⟩
  · rintro ⟨row, hrow, horg, hset, hm⟩
    exact ⟨row, (h.members row horg).mpr hrow, horg, hset, hm⟩

end OwnRows

/-- The organization whose rows a write changes. -/
def IndexWrite.organization : IndexWrite → Option OrgId
  | .remove orgId _ => some orgId
  | .replace orgId _ _ _ => some orgId
  | .writeCursor _ => none

/-- An upsert of other rows leaves a row as it is. -/
theorem mem_overwrites_of_ne {rows : List MembershipRow} {row : MembershipRow}
    {table : Table MembershipRow _ membershipRowKey}
    (hne : ∀ new ∈ rows, membershipRowKey row ≠ membershipRowKey new) :
    row ∈ (rows.foldl (fun table row => table.upsert (fun _ new => new) (fun _ _ _ => rfl) row)
      table).rows ↔ row ∈ table.rows := by
  induction rows generalizing table with
  | nil => rfl
  | cons new rows ih =>
    have hmerge : Table.KeepsKey membershipRowKey fun _ new : MembershipRow => new :=
      fun _ _ _ => rfl
    have hget : (table.upsert (fun _ new => new) hmerge new).get (membershipRowKey row) =
        table.get (membershipRowKey row) :=
      (Table.get_upsert hmerge _).trans (if_neg (hne new List.mem_cons_self))
    rw [List.foldl_cons, ih fun new' hnew' => hne new' (List.mem_cons_of_mem _ hnew')]
    constructor
    · intro hrow
      rw [Table.get_of_mem hrow] at hget
      exact (Table.mem_of_get hget.symm).1
    · intro hrow
      rw [Table.get_of_mem hrow] at hget
      exact (Table.mem_of_get hget).1

theorem ownRows_apply {w : IndexWrite} (h : w.organization ≠ some org) :
    OwnRows db (w.apply db) org := by
  have hother : ∀ {orgId : OrgId}, w.organization = some orgId → orgId ≠ org :=
    fun horg heq => h (heq ▸ horg)
  have hdelete : ∀ (orgId : OrgId) (set : MembershipSetRef) (row : MembershipRow), orgId ≠ org →
      row.orgId = org → (row ∈ (db.deleteMembers orgId set).memberships.rows ↔
        row ∈ db.memberships.rows) := by
    intro orgId set row hne horg
    rw [Database.mem_deleteMembers_iff]
    exact and_iff_left fun hrow => hne (hrow.1.symm.trans horg)
  cases w with
  | remove orgId set =>
    have hne := hother rfl
    refine ⟨rfl, rfl, rfl, fun row horg => ?_, fun row horg => hdelete orgId set row hne horg⟩
    refine Database.mem_sets_removeSet_iff.trans (and_iff_left fun hkey => ?_)
    exact hne ((congrArg Prod.fst hkey).symm.trans horg)
  | replace orgId set members validAt =>
    have hne := hother rfl
    refine ⟨rfl, rfl, rfl, fun row horg => ?_, fun row horg => ?_⟩
    · have hkey : setRowKey row ≠ (orgId, set) := fun hkey =>
        hne ((congrArg Prod.fst hkey).symm.trans horg)
      refine Database.mem_sets_replaceSet_iff.trans ?_
      rw [or_iff_right fun heq => hkey (congrArg setRowKey heq)]
      exact and_iff_left hkey
    · refine (mem_overwrites_of_ne fun new hnew hkey => ?_).trans (hdelete orgId set row hne horg)
      obtain ⟨member, -, hnew⟩ := List.mem_filterMap.mp hnew
      split_ifs at hnew
      obtain rfl := Option.some.inj hnew
      exact hne ((congrArg Prod.fst hkey).symm.trans horg)
  | writeCursor revision => exact ⟨rfl, rfl, rfl, fun _ _ => Iff.rfl, fun _ _ => Iff.rfl⟩

/-- Writes for other organizations. -/
theorem ownRows_applyAll {writes : List IndexWrite}
    (h : ∀ w ∈ writes, w.organization ≠ some org) : OwnRows db (db.applyAll writes) org := by
  induction writes generalizing db with
  | nil => exact OwnRows.refl db org
  | cons w writes ih =>
    have hfirst : OwnRows db (w.apply db) org := ownRows_apply (h w List.mem_cons_self)
    exact hfirst.trans (ih fun w' hw' => h w' (List.mem_cons_of_mem _ hw'))

/-- `reindexOrg` writes for its organization. -/
theorem organization_reindexWrites
    {wanted : OrderedMap String (MembershipSetRef × List FlatMember)}
    {existing : List MembershipSetRef} {w : IndexWrite}
    (h : w ∈ reindexWrites orgId validAt wanted existing) : w.organization = some orgId := by
  unfold reindexWrites at h
  rcases List.mem_append.mp h with h | h
  · obtain ⟨_, -, rfl⟩ := List.mem_map.mp h
    rfl
  · obtain ⟨_, -, rfl⟩ := List.mem_map.mp h
    rfl

/-! ## Members of listed sets -/

namespace Database

/-- Members are stored for sets of the index only. -/
def NoOrphans (db : Database dateParse) : Prop :=
  ∀ row ∈ db.memberships.rows, row.set ∈ db.listSets row.orgId

theorem mem_listSets : set ∈ db.listSets orgId ↔
    ∃ row ∈ db.membershipSets.rows, row.orgId = orgId ∧ row.set = set := by
  simp [listSets, Table.select, and_assoc]

theorem NoOrphans.apply (h : db.NoOrphans) (w : IndexWrite) : (w.apply db).NoOrphans := by
  intro row hrow
  cases w with
  | remove orgId set =>
    obtain ⟨hold, hother⟩ := mem_deleteMembers hrow
    obtain ⟨listed, hlisted, horg, hset⟩ := mem_listSets.mp (h row hold)
    refine mem_listSets.mpr ⟨listed, mem_sets_removeSet_iff.mpr
      ⟨hlisted, fun hkey => ?_⟩, horg, hset⟩
    exact hother ⟨horg.symm.trans (congrArg Prod.fst hkey),
      hset.symm.trans (congrArg Prod.snd hkey)⟩
  | replace orgId set members validAt =>
    rcases mem_overwrites hrow with hold | hnew
    · obtain ⟨hold, hother⟩ := mem_deleteMembers hold
      obtain ⟨listed, hlisted, horg, hset⟩ := mem_listSets.mp (h row hold)
      refine mem_listSets.mpr ⟨listed, mem_sets_replaceSet_iff.mpr
        (Or.inr ⟨hlisted, fun hkey => ?_⟩),
        horg, hset⟩
      exact hother ⟨horg.symm.trans (congrArg Prod.fst hkey),
        hset.symm.trans (congrArg Prod.snd hkey)⟩
    · obtain ⟨member, -, hnew⟩ := List.mem_filterMap.mp hnew
      split_ifs at hnew
      obtain rfl := Option.some.inj hnew
      exact mem_listSets.mpr ⟨_, mem_sets_replaceSet_iff.mpr (Or.inl rfl), rfl, rfl⟩
  | writeCursor revision => exact h row hrow

theorem NoOrphans.applyAll (h : db.NoOrphans) (writes : List IndexWrite) :
    (db.applyAll writes).NoOrphans := by
  induction writes generalizing db with
  | nil => exact h
  | cons w writes ih => exact ih (h.apply w)

end Database

/-! ## What the index should be -/

/-- The index has the sets that an organization should have, with their members; and where `stamped`
is asked, no stamp is below the version of the organization. -/
structure Exact (stamped : Prop) (db : Database dateParse) (orgId : OrgId)
    (collation : String → String → Bool) : Prop where
  listed : ∀ set, set ∈ db.listSets orgId ↔
    WantedIn orgId (db.allTuples orgId collation) (db.listByOrg orgId collation) set
  stored : ∀ set m, db.Stores orgId set m ↔
    WantedIn orgId (db.allTuples orgId collation) (db.listByOrg orgId collation) set ∧
      m ∈ membersIn orgId (db.allTuples orgId collation) (db.listByOrg orgId collation) set
  stamps : stamped → ∀ row ∈ db.membershipSets.rows, row.orgId = orgId →
    (db.organizationVersion orgId).value ≤ row.validAtRevision.value

variable {stamped : Prop}

theorem Exact.of_ownRows (h : Exact stamped db orgId collation) (hown : OwnRows db db' orgId) :
    Exact stamped db' orgId collation := by
  constructor
  · intro set
    rw [hown.mem_listSets, hown.allTuples, hown.listByOrg]
    exact h.listed set
  · intro set m
    rw [hown.stores, hown.allTuples, hown.listByOrg]
    exact h.stored set m
  · intro hstamped row hrow horg
    rw [hown.version]
    exact h.stamps hstamped row ((hown.sets row horg).mp hrow) horg

/-- **What `reindexOrg` leaves** of an organization, whatever the index had before. -/
theorem exact_reindex {wanted : OrderedMap String (MembershipSetRef × List FlatMember)}
    (hwanted : WantedFor orgId wanted (db.allTuples orgId collation) (db.listByOrg orgId collation))
    (horphans : db.NoOrphans)
    (hstamp : stamped → (db.organizationVersion orgId).value ≤ validAt.value) :
    Exact stamped (db.applyAll (reindexWrites orgId validAt wanted (db.listSets orgId))) orgId
      collation := by
  have hstore := db.applyAll_sameStore (reindexWrites orgId validAt wanted (db.listSets orgId))
  have hstorable : ∀ e ∈ wanted, Database.Storable e.2.2 := by
    intro e he
    rw [hwanted.members e he]
    exact storable_flattenSet _ _ _
  let removed := (db.listSets orgId).filter fun set => (OrderedMap.get? wanted (setKey set)).isNone
  have hremoved : ∀ set, set ∈ removed ↔ set ∈ db.listSets orgId ∧
      ¬ ∃ e ∈ wanted, e.2.1 = set := by
    intro set
    rw [List.mem_filter, hwanted.isNone_iff, hwanted.sets]
  have hsplit : db.applyAll (reindexWrites orgId validAt wanted (db.listSets orgId)) =
      (db.applyAll (removed.map (IndexWrite.remove orgId))).applyAll
        (wanted.map fun e => .replace orgId e.2.1 e.2.2 validAt) := List.foldl_append
  -- A set of the organization is there exactly if it is wanted, and then with the new stamp.
  have hsets : ∀ row : MembershipSetRow, row.orgId = orgId →
      (row ∈ (db.applyAll (reindexWrites orgId validAt wanted
        (db.listSets orgId))).membershipSets.rows
        ↔ row.validAtRevision = validAt ∧ ∃ e ∈ wanted, e.2.1 = row.set) := by
    intro row horg
    rw [hsplit, Database.mem_sets_replaces, Database.mem_sets_removes]
    constructor
    · rintro (⟨-, hrow⟩ | ⟨⟨hrow, hkept⟩, hunwanted⟩)
      · exact hrow
      · have hlisted : row.set ∈ db.listSets orgId :=
          Database.mem_listSets.mpr ⟨row, hrow, horg, rfl⟩
        exact absurd ⟨horg, (hremoved row.set).mpr
          ⟨hlisted, fun hex => hunwanted ⟨horg, hex⟩⟩⟩ hkept
    · exact fun hrow => Or.inl ⟨horg, hrow⟩
  have hmembers : ∀ row : MembershipRow, row.orgId = orgId →
      (row ∈ (db.applyAll (reindexWrites orgId validAt wanted (db.listSets orgId))).memberships.rows
        ↔ ∃ e ∈ wanted, e.2.1 = row.set ∧ ⟨row.member, row.depth⟩ ∈ e.2.2) := by
    intro row horg
    rw [hsplit, Database.mem_members_replaces hstorable hwanted.sets_nodup,
      Database.mem_members_removes]
    constructor
    · rintro (⟨-, hrow⟩ | ⟨⟨hrow, hkept⟩, hunwanted⟩)
      · exact hrow
      · have hlisted : row.set ∈ db.listSets orgId := horg ▸ horphans row hrow
        exact absurd ⟨horg, (hremoved row.set).mpr
          ⟨hlisted, fun hex => hunwanted ⟨horg, hex⟩⟩⟩ hkept
    · exact fun hrow => Or.inl ⟨horg, hrow⟩
  have hall : (db.applyAll (reindexWrites orgId validAt wanted (db.listSets orgId))).allTuples orgId
      collation = db.allTuples orgId collation := by
    unfold Database.allTuples Database.listTuples Database.tuplesOf
    rw [hstore.tuples]
  have hlist : (db.applyAll (reindexWrites orgId validAt wanted (db.listSets orgId))).listByOrg
      orgId
      collation = db.listByOrg orgId collation := by
    unfold Database.listByOrg
    rw [hstore.definitions]
  constructor
  · intro set
    rw [hall, hlist, ← hwanted.sets, Database.mem_listSets]
    constructor
    · rintro ⟨row, hrow, horg, rfl⟩
      exact ((hsets row horg).mp hrow).2
    · intro hex
      exact ⟨⟨orgId, set, validAt⟩, (hsets ⟨orgId, set, validAt⟩ rfl).mpr ⟨rfl, hex⟩, rfl, rfl⟩
  · intro set m
    rw [hall, hlist, ← hwanted.sets]
    constructor
    · rintro ⟨row, hrow, horg, rfl, rfl⟩
      obtain ⟨e, he, hset, hmember⟩ := (hmembers row horg).mp hrow
      refine ⟨⟨e, he, hset⟩, ?_⟩
      rw [← hset, ← hwanted.members e he]
      exact hmember
    · rintro ⟨⟨e, he, rfl⟩, hmember⟩
      rw [← hwanted.members e he] at hmember
      have hwritable := (hstorable e he).2 m hmember
      exact ⟨⟨orgId, e.2.1, m.ref, m.depth, hwritable⟩,
        (hmembers ⟨orgId, e.2.1, m.ref, m.depth, hwritable⟩ rfl).mpr
          ⟨e, he, rfl, hmember⟩, rfl, rfl,
        rfl⟩
  · intro hstamped row hrow horg
    have hversion : (db.applyAll (reindexWrites orgId validAt wanted (db.listSets orgId))
        ).organizationVersion orgId = db.organizationVersion orgId := by
      unfold Database.organizationVersion
      rw [hstore.changelog, hstore.definitions]
    rw [hversion, ((hsets row horg).mp hrow).1]
    exact hstamp hstamped

end AccessCore
