/-
  Whether the index has everything (`authz/application/membership-indexer.ts`).

  A tick recomputes the organizations that its page names, and those whose namespaces have changed
  below the end of the page.  The others it leaves alone.  That is enough: an organization that has
  not changed between the cursor of the tick and the end of its page is one whose last change the
  cursor had passed, so it was exact when the cursor was read, and the ticks that commit meanwhile
  leave it exact (`TickCaught`).

  So in every run, whatever the interleaving, the index is exact for every organization that is not
  too large and has no change above the cursor (`index_complete`).  The cursor may be one that a
  late tick has put back: what the sets have is right, though their stamps may be too old to pass
  the gate of a check.  In runs whose pages all reach the cursor the stamps are recent enough too,
  and a check finds in the index exactly the members that flattening finds (`index_answers`).
-/
import AccessCore.Authz.IndexContents
import AccessCore.Authz.IndexerProgress
import AccessCore.Authz.Revisions

namespace AccessCore

variable {dateParse : String → Option Int} {db db' : Database dateParse} {orgId org : OrgId}
  {collation : String → String → Bool} {stamped : Prop} {bound : Nat} {r : Revision}

/-! ## Exact until it changes -/

/-- The index is exact for an organization, unless the organization is large or has changed after
`r`; and `r` is not in the future. -/
structure Caught (stamped : Prop) (bound : Nat) (db : Database dateParse) (orgId : OrgId)
    (collation : String → String → Bool) (r : Revision) : Prop where
  past : r.value ≤ db.current.value
  holds : (db.organizationVersion orgId).value ≤ r.value →
    (db.tuplesOf orgId).length ≤ bound → Exact stamped db orgId collation

theorem OwnRows.symm (h : OwnRows db db' orgId) : OwnRows db' db orgId :=
  ⟨h.tuples.symm, h.definitions.symm, h.changelog.symm, fun row horg => (h.sets row horg).symm,
    fun row horg => (h.members row horg).symm⟩

theorem Caught.of_ownRows (h : Caught stamped bound db orgId collation r)
    (hcurrent : db.current.value ≤ db'.current.value) (hown : OwnRows db db' orgId) :
    Caught stamped bound db' orgId collation r := by
  refine ⟨le_trans h.past hcurrent, fun hversion hsmall => ?_⟩
  rw [hown.version] at hversion
  rw [hown.tuples] at hsmall
  exact (h.holds hversion hsmall).of_ownRows hown

theorem SameIndex.applyAll (h : Database.SameIndex db db') (writes : List IndexWrite) :
    Database.SameIndex (db.applyAll writes) (db'.applyAll writes) := by
  induction writes generalizing db db' with
  | nil => exact h
  | cons w writes ih =>
    obtain ⟨hsets, hmembers, hcursor⟩ := h
    have hfirst : Database.SameIndex (w.apply db) (w.apply db') := by
      cases w with
      | remove orgId set =>
        refine ⟨?_, ?_, hcursor⟩
        · show db'.membershipSets.delete _ = db.membershipSets.delete _
          rw [hsets]
        · show db'.memberships.delete _ = db.memberships.delete _
          rw [hmembers]
      | replace orgId set members validAt =>
        refine ⟨?_, ?_, hcursor⟩
        · simp only [IndexWrite.apply, Database.replaceSet, Database.deleteMembers, hsets]
        · simp only [IndexWrite.apply, Database.replaceSet, Database.deleteMembers, hmembers]
      | writeCursor revision => exact ⟨hsets, hmembers, rfl⟩
    exact ih hfirst

/-- What a writer leaves of an organization, under the writes of a tick: the same, or its version is
the revision of the writer or above. -/
theorem ownRows_write (db : Database dateParse) (operation : AdminOperation) (r : Revision)
    (writes : List IndexWrite) (orgId : OrgId) :
    OwnRows (db.applyAll writes) ((operation.run r db).applyAll writes) orgId ∨
      r.value ≤ ((operation.run r db).organizationVersion orgId).value := by
  rcases run_version db operation r orgId with hunseen | hversion
  · left
    have hstore := db.applyAll_sameStore writes
    have hstore' := (operation.run r db).applyAll_sameStore writes
    have hindex := SameIndex.applyAll (db.run_sameIndex operation r) writes
    refine ⟨?_, ?_, ?_, fun row _ => ?_, fun row _ => ?_⟩
    · unfold Database.tuplesOf
      rw [hstore.tuples, hstore'.tuples]
      exact hunseen.tuples
    · rw [hstore.definitions, hstore'.definitions]
      exact hunseen.definitions
    · rw [hstore.changelog, hstore'.changelog]
      exact hunseen.changelog
    · rw [hindex.membershipSets]
    · rw [hindex.memberships]
  · exact Or.inr hversion

theorem applyAll_current (db : Database dateParse) (writes : List IndexWrite) :
    (db.applyAll writes).current = db.current := by
  unfold Database.current
  rw [(db.applyAll_sameStore writes).revisions]

theorem applyAll_version (db : Database dateParse) (writes : List IndexWrite) (orgId : OrgId) :
    (db.applyAll writes).organizationVersion orgId = db.organizationVersion orgId := by
  have hstore := db.applyAll_sameStore writes
  unfold Database.organizationVersion
  rw [hstore.changelog, hstore.definitions]

theorem applyAll_tuplesOf (db : Database dateParse) (writes : List IndexWrite) (orgId : OrgId) :
    (db.applyAll writes).tuplesOf orgId = db.tuplesOf orgId := by
  unfold Database.tuplesOf
  rw [(db.applyAll_sameStore writes).tuples]

/-- A writer that changes the organization does so above `r`. -/
theorem Caught.write {written : List IndexWrite}
    (h : Caught stamped bound (db.applyAll written) orgId collation r)
    (operation : AdminOperation) {r' : Revision} (hr : db.current.value < r'.value)
    (hcurrent : db.current.value ≤ (operation.run r' db).current.value) :
    Caught stamped bound ((operation.run r' db).applyAll written) orgId collation r := by
  have hpast := h.past
  rw [applyAll_current] at hpast
  rcases ownRows_write db operation r' written orgId with hown | hversion
  · refine h.of_ownRows ?_ hown
    rw [applyAll_current, applyAll_current]
    exact hcurrent
  · refine ⟨?_, fun hle => ?_⟩
    · rw [applyAll_current]
      exact le_trans hpast hcurrent
    · rw [applyAll_version] at hle
      omega

/-! ## What a page covers -/

/-- The page has every change above its cursor and up to its end. -/
def PageCovers (db : Database dateParse) (cursor upTo : Revision) (changes : List TupleChange) :
    Prop :=
  ∀ change ∈ db.changelog, cursor.value < change.revision.value →
    change.revision.value ≤ upTo.value → change ∈ changes

/-- **A page covers** what lies below its end. -/
theorem pageCovers_pageEnd (h : db.CommitOrdered) {pageSize : Nat} {cursor high : Revision} :
    PageCovers db cursor
      (pageEnd pageSize cursor high (db.changesSinceAll collation cursor pageSize))
      (db.changesSinceAll collation cursor pageSize) := by
  intro change hchange hcursor
  have hmem : change ∈ db.changelog.filter fun c => cursor.value < c.revision.value :=
    List.mem_filter.mpr ⟨hchange, decide_eq_true hcursor⟩
  have hordered : CommitLog.Ordered TupleChange.position
      (db.changelog.filter fun c => cursor.value < c.revision.value) := h.ordered.filter _
  rw [h.changesSinceAll]
  generalize (db.changelog.filter fun c => cursor.value < c.revision.value) = entries at *
  intro hend
  rw [← List.take_append_drop pageSize entries] at hmem
  rcases List.mem_append.mp hmem with hpage | hrest
  · exact hpage
  · -- An entry after the page: the page is full, and ends below it.
    exfalso
    have hfull : (entries.take pageSize).length = pageSize := by
      have hlength := List.length_pos_of_mem hrest
      rw [List.length_drop] at hlength
      rw [List.length_take]
      omega
    unfold pageEnd at hend
    dsimp only at hend
    rw [if_pos hfull] at hend
    cases hlast : (entries.take pageSize).getLast? with
    | none =>
      rw [hlast] at hend
      have hle : change.revision.value ≤ cursor.value := hend
      omega
    | some last =>
      rw [hlast] at hend
      have hle : change.revision.value ≤ last.revision.value := hend
      rw [← List.take_append_drop pageSize entries] at hordered
      obtain ⟨-, -, hbefore⟩ := List.pairwise_append.mp hordered
      have hlt : last.revision.value < change.revision.value :=
        hbefore last (List.mem_of_getLast? hlast) change hrest
      omega

theorem PageCovers.write {cursor upTo : Revision} {changes : List TupleChange}
    (h : PageCovers db cursor upTo changes) (hcommitted : db.CommitOrdered)
    (hupTo : upTo.value ≤ db.current.value) (operation : AdminOperation) {r : Revision}
    (hr : db.current.value < r.value) : PageCovers (operation.run r db) cursor upTo changes := by
  obtain ⟨-, -, entries, hchangelog, hentries⟩ := hcommitted.write operation hr
  intro change hchange hcursor hend
  rw [hchangelog] at hchange
  rcases List.mem_append.mp hchange with hold | hnew
  · exact h change hold hcursor hend
  · have habove := hentries change hnew
    omega

/-- An organization that neither the page nor the namespaces name has not changed since the
cursor. -/
theorem version_of_unnamed {cursor upTo : Revision} {changes : List TupleChange}
    (hpage : PageCovers db cursor upTo changes)
    (hunnamed : orgId ∉ changes.map (·.orgId) ++ db.listOrgsWithNamespaceChanges cursor upTo)
    (hversion : (db.organizationVersion orgId).value ≤ upTo.value) :
    (db.organizationVersion orgId).value ≤ cursor.value := by
  have hchanges : ∀ r ∈ (db.changelog.filter fun c => c.orgId = orgId).map (·.revision),
      r.value < cursor.value + 1 := by
    intro r hr
    obtain ⟨change, hchange, rfl⟩ := List.mem_map.mp hr
    obtain ⟨hchange, horg⟩ := List.mem_filter.mp hchange
    have horg : change.orgId = orgId := by simpa using horg
    by_contra hnot
    have hcovered := hpage change hchange (by omega)
      (le_trans (version_of_change hchange horg) hversion)
    exact hunnamed (List.mem_append_left _ (List.mem_map.mpr ⟨change, hcovered, horg⟩))
  have hdefinitions : ∀ r ∈ (db.definitions.select fun d => d.orgId = orgId).map (·.revision),
      r.value < cursor.value + 1 := by
    intro r hr
    obtain ⟨definition, hdefinition, rfl⟩ := List.mem_map.mp hr
    obtain ⟨hdefinition, horg⟩ := List.mem_filter.mp hdefinition
    have horg : definition.orgId = orgId := by simpa using horg
    by_contra hnot
    have hle := le_trans (version_of_definition hdefinition horg) hversion
    have hnamed : definition ∈ db.definitions.select fun d =>
        cursor.value < d.revision.value && d.revision.value ≤ upTo.value := by
      refine List.mem_filter.mpr ⟨hdefinition, ?_⟩
      rw [Bool.and_eq_true, decide_eq_true_eq, decide_eq_true_eq]
      exact ⟨by omega, hle⟩
    refine hunnamed (List.mem_append_right _ (List.mem_dedup.mpr ?_))
    exact List.mem_map.mpr ⟨definition, hnamed, horg⟩
  have hleft := RevisionStore.maxRevision_lt hchanges (Nat.succ_pos _)
  have hright := RevisionStore.maxRevision_lt hdefinitions (Nat.succ_pos _)
  unfold Database.organizationVersion
  dsimp only
  omega

theorem refers_allTuples {set : MembershipSetRef} :
    Refers (db.allTuples orgId collation) set ↔ Refers (db.tuplesOf orgId) set := by
  unfold Database.allTuples Database.listTuples
  dsimp only
  rw [List.take_of_length_le (by rw [List.length_insertionSort])]
  unfold Refers
  simp only [List.mem_insertionSort]

/-! ## What a tick is going to commit -/

/-- A tick that has its page, and still has to go through `pending`.  When it commits, every other
organization is exact unless it has changed after the end of the page; and whatever the index has
right of an organization that has not changed since `seen`, the writes leave right. -/
structure Underway (stamped : Prop) (bound : Nat) (collation : String → String → Bool)
    (db : Database dateParse) (waiting : Revision → Prop) (upTo seen : Revision)
    (written : List IndexWrite) (pending : List OrgId) : Prop where
  past : seen.value ≤ db.current.value
  covers : upTo.value ≤ seen.value
  stored : db.readCursor.value ≤ seen.value
  queued : ∀ cursor, waiting cursor → cursor.value ≤ seen.value
  stamp : stamped → seen.value ≤ upTo.value
  settled : ∀ orgId, orgId ∉ pending →
    Caught stamped bound (db.applyAll written) orgId collation upTo
  keeps : ∀ orgId, (db.organizationVersion orgId).value ≤ seen.value →
    Exact stamped db orgId collation → Exact stamped (db.applyAll written) orgId collation

/-- What a tick has read, by the stored tables and the cursors of the ticks that wait for the
lock. -/
def TickCaught (stamped : Prop) (bound : Nat) (collation : String → String → Bool)
    (db : Database dateParse) (waiting : Revision → Prop) (tick : Tick) : Prop :=
  match tick.stage with
  | .locking cursor => tick.written = [] ∧
      (∀ orgId, Caught stamped bound db orgId collation cursor) ∧
      (stamped → cursor.value ≤ db.readCursor.value)
  | .reading cursor => tick.written = [] ∧ ∀ orgId, Caught stamped bound db orgId collation cursor
  | .paging cursor _ => tick.written = [] ∧
      ∀ orgId, Caught stamped bound db orgId collation cursor
  | .listing cursor upTo changes => (tick.written = [] ∧
      ∀ orgId, Caught stamped bound db orgId collation cursor) ∧ PageCovers db cursor upTo changes
  | .reindexing upTo orgs =>
      ∃ seen, Underway stamped bound collation db waiting upTo seen tick.written orgs
  | .loading upTo orgs orgId tuples =>
      ∃ seen, Underway stamped bound collation db waiting upTo seen tick.written (orgId :: orgs) ∧
        Settled db orgId collation seen fun all _ => tuples = all
  | .flattening upTo orgs orgId snapshot =>
      ∃ seen, Underway stamped bound collation db waiting upTo seen tick.written (orgId :: orgs) ∧
        Settled db orgId collation seen fun all definitions =>
          snapshot = reindexSnapshot orgId all definitions
  | .sweeping upTo orgs orgId wanted =>
      ∃ seen, Underway stamped bound collation db waiting upTo seen tick.written (orgId :: orgs) ∧
        Settled db orgId collation seen (WantedFor orgId wanted)

namespace Underway

variable {waiting waiting' : Revision → Prop} {upTo seen : Revision} {written : List IndexWrite}
  {pending : List OrgId}

/-- Another tick begins to wait with the stored cursor. -/
theorem wait (h : Underway stamped bound collation db waiting upTo seen written pending)
    (hwaiting : ∀ cursor, waiting' cursor → waiting cursor ∨ cursor = db.readCursor) :
    Underway stamped bound collation db waiting' upTo seen written pending := by
  refine { h with queued := fun cursor hcursor => ?_ }
  rcases hwaiting cursor hcursor with hold | rfl
  · exact h.queued cursor hold
  · exact h.stored

/-- A writer changes what it changes above `seen`. -/
theorem write (h : Underway stamped bound collation db waiting upTo seen written pending)
    (operation : AdminOperation) {r : Revision} (hr : db.current.value < r.value)
    (hcurrent : db.current.value ≤ (operation.run r db).current.value) :
    Underway stamped bound collation (operation.run r db) waiting upTo seen written pending where
  past := le_trans h.past hcurrent
  covers := h.covers
  stored := by
    rw [Indexers.readCursor_eq (db.run_sameIndex operation r)]
    exact h.stored
  queued := h.queued
  stamp := h.stamp
  settled orgId hpending := (h.settled orgId hpending).write operation hr hcurrent
  keeps orgId hversion hexact := by
    have hpast := h.past
    rcases ownRows_write db operation r [] orgId with hown | hchanged
    · rcases ownRows_write db operation r written orgId with hwritten | hchanged
      · have hold : Exact stamped db orgId collation := hexact.of_ownRows hown.symm
        have hsame : (operation.run r db).organizationVersion orgId =
            db.organizationVersion orgId :=
          hown.version
        rw [hsame] at hversion
        exact (h.keeps orgId hversion hold).of_ownRows hwritten
      · omega
    · omega

/-- An organization with too many tuples is passed over. -/
theorem skip {orgId : OrgId} {orgs : List OrgId}
    (h : Underway stamped bound collation db waiting upTo seen written (orgId :: orgs))
    (hlarge : bound < (db.tuplesOf orgId).length) :
    Underway stamped bound collation db waiting upTo seen written orgs := by
  refine { h with settled := fun other hother => ?_ }
  by_cases horg : other = orgId
  · subst horg
    refine ⟨?_, fun _ hsmall => ?_⟩
    · rw [applyAll_current]
      exact le_trans h.covers h.past
    · rw [applyAll_tuplesOf] at hsmall
      omega
  · exact h.settled other (by simp [horg, hother])

/-- **The next organization** is done. -/
theorem reindex {orgId : OrgId} {orgs : List OrgId}
    {wanted : OrderedMap String (MembershipSetRef × List FlatMember)}
    (h : Underway stamped bound collation db waiting upTo seen written (orgId :: orgs))
    (hwanted : Settled db orgId collation seen (WantedFor orgId wanted)) (horphans : db.NoOrphans) :
    Underway stamped bound collation db waiting upTo seen
      (written ++ reindexWrites orgId upTo wanted ((db.applyAll written).listSets orgId)) orgs := by
  have hstore := db.applyAll_sameStore written
  let writes := reindexWrites orgId upTo wanted ((db.applyAll written).listSets orgId)
  have hsplit : db.applyAll (written ++ writes) = (db.applyAll written).applyAll writes :=
    List.foldl_append
  -- Whatever the index had of the organization before.
  have hdone : (db.organizationVersion orgId).value ≤ seen.value →
      Exact stamped (db.applyAll (written ++ writes)) orgId collation := by
    intro hversion
    have hright := (hwanted.of_sameStore hstore).holds
    rw [applyAll_version] at hright
    rw [hsplit]
    apply exact_reindex (hright hversion) (horphans.applyAll written)
    intro hstamped
    rw [applyAll_version]
    exact le_trans hversion (h.stamp hstamped)
  have hother : ∀ other, other ≠ orgId →
      OwnRows (db.applyAll written) (db.applyAll (written ++ writes)) other := by
    intro other hne
    rw [hsplit]
    apply ownRows_applyAll
    intro w hw horg
    rw [organization_reindexWrites hw] at horg
    exact hne (Option.some.inj horg).symm
  have hcurrent : (db.applyAll (written ++ writes)).current = (db.applyAll written).current := by
    rw [applyAll_current, applyAll_current]
  refine { h with settled := fun other hpending => ?_, keeps := fun other hversion hexact => ?_ }
  · by_cases horg : other = orgId
    · subst horg
      refine ⟨?_, fun hversion _ => hdone ?_⟩
      · rw [applyAll_current]
        exact le_trans h.covers h.past
      · rw [applyAll_version] at hversion
        exact le_trans hversion h.covers
    · have hqueued := h.settled other (by simp [horg, hpending])
      exact hqueued.of_ownRows (by rw [hcurrent]) (hother other horg)
  · by_cases horg : other = orgId
    · subst horg
      exact hdone hversion
    · exact (h.keeps other hversion hexact).of_ownRows (hother other horg)

end Underway

namespace TickCaught

variable {waiting waiting' : Revision → Prop} {tick : Tick}

theorem wait (h : TickCaught stamped bound collation db waiting tick)
    (hwaiting : ∀ cursor, waiting' cursor → waiting cursor ∨ cursor = db.readCursor) :
    TickCaught stamped bound collation db waiting' tick := by
  obtain ⟨stage, written⟩ := tick
  cases stage with
  | reindexing upTo orgs =>
    obtain ⟨seen, hunderway⟩ := h
    exact ⟨seen, hunderway.wait hwaiting⟩
  | loading upTo orgs orgId tuples =>
    obtain ⟨seen, hunderway, hread⟩ := h
    exact ⟨seen, hunderway.wait hwaiting, hread⟩
  | flattening upTo orgs orgId snapshot =>
    obtain ⟨seen, hunderway, hread⟩ := h
    exact ⟨seen, hunderway.wait hwaiting, hread⟩
  | sweeping upTo orgs orgId wanted =>
    obtain ⟨seen, hunderway, hread⟩ := h
    exact ⟨seen, hunderway.wait hwaiting, hread⟩
  | _ => exact h

theorem write (h : TickCaught stamped bound collation db waiting tick)
    (hcommitted : db.CommitOrdered)
    (hrevisions : ∀ r ∈ tick.stage.revisions, r.value ≤ db.current.value)
    (operation : AdminOperation) {r : Revision} (hr : db.current.value < r.value) :
    TickCaught stamped bound collation (operation.run r db) waiting tick := by
  obtain ⟨-, hcurrent, -⟩ := hcommitted.write operation hr
  have hcaught : ∀ {cursor : Revision}, (∀ orgId, Caught stamped bound db orgId collation cursor) →
      ∀ orgId, Caught stamped bound (operation.run r db) orgId collation cursor := by
    intro cursor hold orgId
    have hnone : Caught stamped bound (db.applyAll []) orgId collation cursor := hold orgId
    exact hnone.write operation hr hcurrent
  obtain ⟨stage, written⟩ := tick
  cases stage with
  | locking cursor =>
    obtain ⟨hnone, hold, hstored⟩ := h
    refine ⟨hnone, hcaught hold, ?_⟩
    rw [Indexers.readCursor_eq (db.run_sameIndex operation r)]
    exact hstored
  | reading cursor => exact ⟨h.1, hcaught h.2⟩
  | paging cursor high => exact ⟨h.1, hcaught h.2⟩
  | listing cursor upTo changes =>
    obtain ⟨⟨hnone, hold⟩, hpage⟩ := h
    have hupTo : upTo.value ≤ db.current.value :=
      hrevisions upTo (List.mem_cons_of_mem _ List.mem_cons_self)
    exact ⟨⟨hnone, hcaught hold⟩, hpage.write hcommitted hupTo operation hr⟩
  | reindexing upTo orgs =>
    obtain ⟨seen, hunderway⟩ := h
    exact ⟨seen, hunderway.write operation hr hcurrent⟩
  | loading upTo orgs orgId tuples =>
    obtain ⟨seen, hunderway, hread⟩ := h
    exact ⟨seen, hunderway.write operation hr hcurrent, hread.write operation hr hcurrent⟩
  | flattening upTo orgs orgId snapshot =>
    obtain ⟨seen, hunderway, hread⟩ := h
    exact ⟨seen, hunderway.write operation hr hcurrent, hread.write operation hr hcurrent⟩
  | sweeping upTo orgs orgId wanted =>
    obtain ⟨seen, hunderway, hread⟩ := h
    exact ⟨seen, hunderway.write operation hr hcurrent, hread.write operation hr hcurrent⟩

end TickCaught

/-! ## Who is past the lock -/

namespace Indexers

variable {s : Indexers dateParse} {id : Nat} {tick : Tick}

/-- Only the holder of the lock is past it. -/
def Alone (s : Indexers dateParse) : Prop :=
  ∀ id tick, s.ticks id = some tick → Locked tick.stage → s.holder = some id

/-- Some tick waits for the lock with this cursor. -/
def Waiting (s : Indexers dateParse) (cursor : Revision) : Prop :=
  ∃ id written, s.ticks id = some ⟨.locking cursor, written⟩

theorem Alone.initial : (Indexers.initial : Indexers dateParse).Alone := by
  intro id tick h
  cases h

theorem Alone.setTick (h : s.Alone) (hlocked : Locked tick.stage → s.holder = some id) :
    (s.setTick id tick).Alone := by
  intro i t ht hlock
  have hcases : (if i = id then some tick else s.ticks i) = some t := ht
  split_ifs at hcases with hi
  · obtain rfl := Option.some.inj hcases
    rw [hi]
    exact hlocked hlock
  · exact h i t hcases hlock

theorem Alone.finish (h : s.Alone) (id : Nat) : (s.finish id).Alone := by
  intro i t ht hlock
  have hcases : (if i = id then none else s.ticks i) = some t := ht
  split_ifs at hcases with hi
  have hholder := h i t hcases hlock
  show (if s.holder = some id then none else s.holder) = some i
  rw [hholder, if_neg fun heq => hi (Option.some.inj heq)]

variable (options : Nat → MembershipIndexerOptions)

theorem Alone.next (h : s.Alone) (htick : s.ticks id = some tick) :
    (s.next collation options id tick).Alone := by
  have hholder := h id tick htick
  obtain ⟨stage, written⟩ := tick
  unfold Indexers.next
  cases stage with
  | locking cursor =>
    dsimp only
    split_ifs with hheld
    · exact h.finish id
    · -- Nobody has the lock, so nobody is past it.
      intro i t ht hlock
      have hcases : (if i = id then some ⟨.reading cursor, written⟩ else s.ticks i) = some t := ht
      split_ifs at hcases with hi
      · rw [hi]
      · have hother := h i t hcases hlock
        rw [hother] at hheld
        exact absurd rfl hheld
  | paging cursor high =>
    dsimp only
    split_ifs
    · exact h.finish id
    · exact h.setTick fun _ => hholder trivial
  | reindexing upTo orgs =>
    cases orgs with
    | nil => exact h.finish id
    | cons orgId orgs =>
      dsimp only
      split_ifs
      · exact h.setTick fun _ => hholder trivial
      · exact h.setTick fun _ => hholder trivial
  | _ => exact h.setTick fun _ => hholder trivial

theorem Alone.step (h : s.Alone) (e : IndexerStep) : (s.step collation options e).Alone := by
  cases e with
  | write operation skipped => exact h
  | start id =>
    dsimp only [Indexers.step]
    cases htick : s.ticks id with
    | some tick => exact h
    | none => exact h.setTick fun hlock => absurd hlock not_false
  | next id =>
    dsimp only [Indexers.step]
    cases htick : s.ticks id with
    | some tick => exact h.next options htick
    | none => exact h
  | abort id => exact h.finish id

/-! ## The invariant -/

/-- The index is exact up to the stored cursor, and every tick is going to leave it so. -/
structure Complete (s : Indexers dateParse) (stamped : Prop) (bound : Nat)
    (collation : String → String → Bool) : Prop where
  orphans : s.db.NoOrphans
  index : ∀ orgId, Caught stamped bound s.db orgId collation s.db.readCursor
  ticks : ∀ id tick, s.ticks id = some tick →
    TickCaught stamped bound collation s.db s.Waiting tick

/-- Before the first tick nothing is stored, and nothing is indexed. -/
theorem Complete.initial :
    (Indexers.initial : Indexers dateParse).Complete stamped bound collation where
  orphans row hrow := absurd hrow List.not_mem_nil
  index orgId := by
    refine ⟨le_refl _, fun _ _ => ?_⟩
    have hnone : ∀ set tuples definitions, tuples = [] →
        ¬ WantedIn orgId tuples definitions set := by
      rintro set tuples definitions rfl ⟨⟨tuple, htuple, -⟩, -⟩
      exact absurd htuple List.not_mem_nil
    constructor
    · intro set
      exact iff_of_false (fun hset => absurd hset List.not_mem_nil) (hnone set _ _ rfl)
    · intro set m
      refine iff_of_false ?_ fun hwanted => hnone set _ _ rfl hwanted.1
      rintro ⟨row, hrow, -⟩
      exact absurd hrow List.not_mem_nil
    · intro _ row hrow
      exact absurd hrow List.not_mem_nil
  ticks id tick h := by cases h

theorem Complete.write (h : s.Complete stamped bound collation) (hok : s.Ok)
    (operation : AdminOperation) (skipped : Nat) :
    ({ s with db := operation.run ⟨s.db.current.value + 1 + skipped⟩ s.db } :
      Indexers dateParse).Complete stamped bound collation := by
  have hnext : s.db.current.value < s.db.current.value + 1 + skipped := by omega
  obtain ⟨-, hcurrent, -⟩ :=
    hok.committed.write operation (r := ⟨s.db.current.value + 1 + skipped⟩) hnext
  have hindex := s.db.run_sameIndex operation ⟨s.db.current.value + 1 + skipped⟩
  constructor
  · intro row hrow
    have hold := h.orphans row (hindex.memberships ▸ hrow)
    unfold Database.listSets at hold ⊢
    rw [hindex.membershipSets]
    exact hold
  · intro orgId
    rw [readCursor_eq hindex]
    have hnone : Caught stamped bound (s.db.applyAll []) orgId collation s.db.readCursor :=
      h.index orgId
    exact hnone.write operation hnext hcurrent
  · intro i t ht
    exact (h.ticks i t ht).write hok.committed (hok.ticks i t ht) operation hnext

/-- A tick that has the lock goes on. -/
theorem Complete.move (h : s.Complete stamped bound collation) (holder : Option Nat) {tick : Tick}
    (hlocked : Locked tick.stage)
    (hcaught : TickCaught stamped bound collation s.db s.Waiting tick) :
    ({ s.setTick id tick with holder := holder } : Indexers dateParse).Complete stamped bound
      collation := by
  have hwaiting : ∀ cursor, (s.setTick id tick).Waiting cursor →
      s.Waiting cursor ∨ cursor = s.db.readCursor := by
    rintro cursor ⟨i, written, ht⟩
    have hcases : (if i = id then some tick else s.ticks i) = some ⟨.locking cursor, written⟩ := ht
    split_ifs at hcases with hi
    · obtain rfl := Option.some.inj hcases
      exact absurd hlocked not_false
    · exact Or.inl ⟨i, written, hcases⟩
  refine ⟨h.orphans, h.index, fun i t ht => ?_⟩
  have hcases : (if i = id then some tick else s.ticks i) = some t := ht
  split_ifs at hcases with hi
  · obtain rfl := Option.some.inj hcases
    exact hcaught.wait hwaiting
  · exact (h.ticks i t hcases).wait hwaiting

theorem waiting_finish {cursor : Revision} (h : (s.finish id).Waiting cursor) :
    s.Waiting cursor := by
  obtain ⟨i, written, ht⟩ := h
  have hcases : (if i = id then none else s.ticks i) = some ⟨.locking cursor, written⟩ := ht
  split_ifs at hcases
  exact ⟨i, written, hcases⟩

theorem Complete.finish (h : s.Complete stamped bound collation) (id : Nat) :
    (s.finish id).Complete stamped bound collation := by
  refine ⟨h.orphans, h.index, fun i t ht => ?_⟩
  have hcases : (if i = id then none else s.ticks i) = some t := ht
  split_ifs at hcases
  exact (h.ticks i t hcases).wait fun cursor hcursor => Or.inl (waiting_finish hcursor)

theorem Complete.start (h : s.Complete stamped bound collation) (id : Nat) :
    (s.setTick id ⟨.locking s.db.readCursor, []⟩).Complete stamped bound collation := by
  have hwaiting : ∀ cursor, (s.setTick id ⟨.locking s.db.readCursor, []⟩).Waiting cursor →
      s.Waiting cursor ∨ cursor = s.db.readCursor := by
    rintro cursor ⟨i, written, ht⟩
    have hcases : (if i = id then some ⟨.locking s.db.readCursor, []⟩ else s.ticks i) =
        some ⟨.locking cursor, written⟩ := ht
    split_ifs at hcases with hi
    · cases hcases
      exact Or.inr rfl
    · exact Or.inl ⟨i, written, hcases⟩
  refine ⟨h.orphans, h.index, fun i t ht => ?_⟩
  have hcases : (if i = id then some ⟨.locking s.db.readCursor, []⟩ else s.ticks i) = some t := ht
  split_ifs at hcases with hi
  · obtain rfl := Option.some.inj hcases
    exact ⟨rfl, h.index, fun _ => le_refl _⟩
  · exact (h.ticks i t hcases).wait hwaiting

/-- **The tick commits**: the other ticks still wait for the lock, and what they know stays true. -/
theorem Complete.commit (h : s.Complete stamped bound collation) (halone : s.Alone)
    {upTo : Revision} {written : List IndexWrite}
    (htick : s.ticks id = some ⟨.reindexing upTo [], written⟩)
    (hahead : stamped → s.db.readCursor.value ≤ upTo.value) :
    ({ s.finish id with db := s.db.applyAll (written ++ [.writeCursor upTo]) } :
      Indexers dateParse).Complete stamped bound collation := by
  obtain ⟨seen, hunderway⟩ : ∃ seen,
      Underway stamped bound collation s.db s.Waiting upTo seen written [] := h.ticks id _ htick
  have hholder : s.holder = some id := halone id _ htick trivial
  have hlast : s.db.applyAll (written ++ [.writeCursor upTo]) =
      (s.db.applyAll written).writeCursor upTo := List.foldl_append
  have hrows : ∀ orgId, OwnRows (s.db.applyAll written)
      (s.db.applyAll (written ++ [.writeCursor upTo])) orgId := by
    intro orgId
    rw [hlast]
    exact ⟨rfl, rfl, rfl, fun _ _ => Iff.rfl, fun _ _ => Iff.rfl⟩
  have hcurrent : (s.db.applyAll (written ++ [.writeCursor upTo])).current.value =
      (s.db.applyAll written).current.value := by
    rw [applyAll_current, applyAll_current]
  have hcursor := s.db.readCursor_applyAll written upTo
  constructor
  · exact h.orphans.applyAll _
  · intro orgId
    rw [hcursor]
    exact (hunderway.settled orgId List.not_mem_nil).of_ownRows (le_of_eq hcurrent.symm)
      (hrows orgId)
  · intro i t ht
    have hcases : (if i = id then none else s.ticks i) = some t := ht
    split_ifs at hcases with hi
    obtain ⟨stage, w⟩ := t
    cases stage with
    | locking cursor =>
      obtain ⟨hnone, hcaught, hstored⟩ := h.ticks i _ hcases
      have hseen : cursor.value ≤ seen.value := hunderway.queued cursor ⟨i, w, hcases⟩
      refine ⟨hnone, fun orgId => ?_, fun hstamped => ?_⟩
      · obtain ⟨hpast, hholds⟩ := hcaught orgId
        refine ⟨?_, fun hversion hsmall => ?_⟩
        · show cursor.value ≤ (s.db.applyAll _).current.value
          rw [applyAll_current]
          exact hpast
        · have hversion' : ((s.db.applyAll (written ++ [.writeCursor upTo])).organizationVersion
              orgId).value ≤ cursor.value := hversion
          rw [applyAll_version] at hversion'
          have hsmall' : ((s.db.applyAll (written ++ [.writeCursor upTo])).tuplesOf orgId).length ≤
              bound := hsmall
          rw [applyAll_tuplesOf] at hsmall'
          have hexact := hunderway.keeps orgId (le_trans hversion' hseen) (hholds hversion' hsmall')
          exact hexact.of_ownRows (hrows orgId)
      · rw [hcursor]
        exact le_trans (hstored hstamped) (hahead hstamped)
    | _ =>
      have hother := halone i _ hcases trivial
      rw [hholder] at hother
      exact absurd (Option.some.inj hother).symm hi

/-- What a tick knows when it has its page and the organizations that the page names. -/
theorem Complete.underway (h : s.Complete stamped bound collation) (hok : s.Ok)
    {cursor upTo : Revision} {changes : List TupleChange}
    (htick : s.ticks id = some ⟨.listing cursor upTo changes, []⟩)
    (hahead : stamped → s.db.readCursor.value ≤ upTo.value) :
    ∃ seen, Underway stamped bound collation s.db s.Waiting upTo seen []
      (changes.map (·.orgId) ++ s.db.listOrgsWithNamespaceChanges cursor upTo).eraseDups := by
  obtain ⟨⟨-, hcaught⟩, hpage⟩ := h.ticks id _ htick
  have hupTo : upTo.value ≤ s.db.current.value :=
    hok.ticks id _ htick upTo (List.mem_cons_of_mem _ List.mem_cons_self)
  have hsettled : ∀ orgId,
      orgId ∉ (changes.map (·.orgId) ++ s.db.listOrgsWithNamespaceChanges cursor upTo).eraseDups →
        Caught stamped bound (s.db.applyAll []) orgId collation upTo := by
    intro orgId hunnamed
    rw [List.mem_eraseDups] at hunnamed
    refine ⟨hupTo, fun hversion hsmall => ?_⟩
    exact (hcaught orgId).holds (version_of_unnamed hpage hunnamed hversion) hsmall
  -- The stamps are the end of the page; without stamps, the present is as good.
  by_cases hstamped : stamped
  · refine ⟨upTo, hupTo, le_refl _, hahead hstamped, ?_, fun _ => le_refl _, hsettled,
      fun _ _ hexact => hexact⟩
    rintro waiting ⟨i, w, hwaits⟩
    obtain ⟨-, -, hstored⟩ := h.ticks i _ hwaits
    exact le_trans (hstored hstamped) (hahead hstamped)
  · refine ⟨s.db.current, le_refl _, hupTo, hok.cursor, ?_, fun hasked => absurd hasked hstamped,
      hsettled, fun _ _ hexact => hexact⟩
    rintro waiting ⟨i, w, hwaits⟩
    exact hok.ticks i _ hwaits waiting List.mem_cons_self

/-- **The statement of a tick.** -/
theorem Complete.next (h : s.Complete stamped bound collation) (hok : s.Ok) (halone : s.Alone)
    (hahead : stamped → s.Ahead) (hbound : ∀ id, bound ≤ (options id).maxTuplesPerOrg)
    (htick : s.ticks id = some tick) :
    (s.next collation options id tick).Complete stamped bound collation := by
  have hcaught := h.ticks id tick htick
  obtain ⟨stage, written⟩ := tick
  unfold Indexers.next
  cases stage with
  | locking cursor =>
    obtain ⟨hnone, hcaught, -⟩ := hcaught
    dsimp only
    split_ifs
    · exact h.finish id
    · exact h.move (some id) trivial ⟨hnone, hcaught⟩
  | reading cursor => exact h.move s.holder trivial hcaught
  | paging cursor high =>
    dsimp only
    split_ifs
    · exact h.finish id
    · exact h.move s.holder trivial ⟨hcaught, pageCovers_pageEnd hok.committed⟩
  | listing cursor upTo changes =>
    obtain ⟨⟨hnone, -⟩, -⟩ := hcaught
    dsimp only at hnone
    subst hnone
    refine h.move s.holder trivial (h.underway hok htick fun hstamped => ?_)
    obtain ⟨hupTo, -⟩ := (hahead hstamped).ticks id _ htick
    exact hupTo
  | reindexing upTo orgs =>
    cases orgs with
    | nil =>
      refine h.commit halone htick fun hstamped => ?_
      obtain ⟨hupTo, -⟩ := (hahead hstamped).ticks id _ htick
      exact hupTo
    | cons orgId orgs =>
      obtain ⟨seen, hunderway⟩ := hcaught
      dsimp only
      split_ifs with hlarge
      · have hmany : bound < (s.db.tuplesOf orgId).length := by
          unfold Database.listTuples at hlarge
          rw [List.length_take, List.length_insertionSort] at hlarge
          have hleast := hbound id
          omega
        exact h.move s.holder trivial ⟨seen, hunderway.skip hmany⟩
      · exact h.move s.holder trivial
          ⟨seen, hunderway, hunderway.past, fun _ => listTuples_eq_all hlarge⟩
  | loading upTo orgs orgId tuples =>
    obtain ⟨seen, hunderway, hread⟩ := hcaught
    refine h.move s.holder trivial ⟨seen, hunderway, hread.past, fun hversion => ?_⟩
    show reindexSnapshot orgId tuples _ = _
    rw [hread.holds hversion]
  | flattening upTo orgs orgId snapshot =>
    obtain ⟨seen, hunderway, hread⟩ := hcaught
    refine h.move s.holder trivial ⟨seen, hunderway, hread.past, fun hversion => ?_⟩
    rw [hread.holds hversion]
    apply wantedFor_wantedSets
    intro set
    rw [mem_listReferencedUsersets]
    exact refers_allTuples.symm
  | sweeping upTo orgs orgId wanted =>
    obtain ⟨seen, hunderway, hread⟩ := hcaught
    exact h.move s.holder trivial ⟨seen, hunderway.reindex hread h.orphans⟩

/-- **The step lemma.** -/
theorem Complete.step (h : s.Complete stamped bound collation) (hok : s.Ok) (halone : s.Alone)
    (hahead : stamped → s.Ahead) (hbound : ∀ id, bound ≤ (options id).maxTuplesPerOrg)
    (e : IndexerStep) : (s.step collation options e).Complete stamped bound collation := by
  cases e with
  | write operation skipped => exact h.write hok operation skipped
  | start id =>
    dsimp only [Indexers.step]
    cases htick : s.ticks id with
    | some tick => exact h
    | none => exact h.start id
  | next id =>
    dsimp only [Indexers.step]
    cases htick : s.ticks id with
    | some tick => exact h.next options hok halone hahead hbound htick
    | none => exact h
  | abort id => exact h.finish id

/-- **The run lemma.** -/
theorem Complete.run (h : s.Complete stamped bound collation) (hok : s.Ok) (halone : s.Alone)
    (hahead : stamped → s.Ahead) (hbound : ∀ id, bound ≤ (options id).maxTuplesPerOrg)
    {steps : List IndexerStep}
    (hreach : stamped → s.pagesReach collation options steps = true) :
    (s.run collation options steps).Complete stamped bound collation := by
  induction steps generalizing s with
  | nil => exact h
  | cons e steps ih =>
    apply ih (h.step options hok halone hahead hbound e) (hok.step collation options e)
      (halone.step options e)
    · intro hstamped
      have hfirst := (Bool.and_eq_true_iff.mp (hreach hstamped)).1
      exact ((hahead hstamped).step collation options hfirst).1
    · intro hstamped
      exact (Bool.and_eq_true_iff.mp (hreach hstamped)).2

end Indexers

/-! ## What a member finds -/

/-- A hit is a stored member of a listed set. -/
theorem mem_membershipsOf {member : EntityRef} {hit : MembershipHit} :
    hit ∈ db.membershipsOf orgId member ↔ db.Stores orgId hit.set ⟨member, hit.depth⟩ ∧
      ⟨orgId, hit.set, hit.validAtRevision⟩ ∈ db.membershipSets.rows := by
  unfold Database.membershipsOf
  simp only [List.mem_flatMap, List.mem_map, Table.select, List.mem_filter, Bool.and_eq_true,
    decide_eq_true_eq]
  constructor
  · rintro ⟨row, ⟨hrow, rfl, rfl⟩, set, ⟨hset, horg, hsame⟩, rfl⟩
    refine ⟨⟨row, hrow, rfl, rfl, rfl⟩, ?_⟩
    rw [← horg, ← hsame]
    exact hset
  · rintro ⟨⟨row, hrow, horg, hset, hmember⟩, hlisted⟩
    obtain ⟨hmember, hdepth⟩ := FlatMember.mk.inj hmember
    refine ⟨row, ⟨hrow, horg, hmember.symm⟩, _, ⟨hlisted, horg.symm, hset.symm⟩, ?_⟩
    cases hit
    simp_all

namespace IndexedMemberships

/-- One more entry. -/
theorem isSome_keep {m : IndexedMembership} {depths : OrderedMap String Nat} {key : String} :
    (OrderedMap.get? (keep depths m) key).isSome = true ↔
      nodeKey m.object m.relation = key ∨ (OrderedMap.get? depths key).isSome = true := by
  have hset : (OrderedMap.get? (OrderedMap.set depths (nodeKey m.object m.relation) m.depth)
      key).isSome = true ↔
        nodeKey m.object m.relation = key ∨ (OrderedMap.get? depths key).isSome = true := by
    rw [OrderedMap.get?_set]
    by_cases hkey : nodeKey m.object m.relation = key
    · simp [hkey]
    · simp [hkey]
  unfold keep
  cases hget : OrderedMap.get? depths (nodeKey m.object m.relation) with
  | none =>
    simp only [hget]
    exact hset
  | some seen =>
    simp only [hget]
    split_ifs
    · exact hset
    · refine (or_iff_right_of_imp ?_).symm
      rintro rfl
      rw [hget]
      rfl

/-- A node of an entry has some depth. -/
theorem isSome_keeps {memberships : List IndexedMembership} {depths : OrderedMap String Nat}
    {key : String} (h : (OrderedMap.get? depths key).isSome = true ∨
      ∃ m ∈ memberships, nodeKey m.object m.relation = key) :
    (OrderedMap.get? (memberships.foldl keep depths) key).isSome = true := by
  induction memberships generalizing depths with
  | nil =>
    rcases h with h | ⟨m, hm, -⟩
    · exact h
    · exact absurd hm List.not_mem_nil
  | cons m memberships ih =>
    apply ih
    rcases h with hseen | ⟨m', hm', hkey⟩
    · exact Or.inl (isSome_keep.mpr (Or.inr hseen))
    · rcases List.mem_cons.mp hm' with rfl | hm'
      · exact Or.inl (isSome_keep.mpr (Or.inl hkey))
      · exact Or.inr ⟨m', hm', hkey⟩

end IndexedMemberships

namespace Exact

/-- What `membershipsOf` finds in an index that is exact. -/
theorem membershipsOf (h : Exact stamped db orgId collation) {set : MembershipSetRef}
    {member : EntityRef} {depth : Nat} :
    (∃ validAt, ⟨set, depth, validAt⟩ ∈ db.membershipsOf orgId member) ↔
      set ∈ db.listSets orgId ∧ ⟨member, depth⟩ ∈
        (db.flattenedSet orgId collation set).members := by
  have hlisted := h.listed set
  have hstored := h.stored set ⟨member, depth⟩
  constructor
  · rintro ⟨validAt, hhit⟩
    obtain ⟨hwanted, hmember⟩ := hstored.mp (mem_membershipsOf.mp hhit).1
    exact ⟨hlisted.mpr hwanted, hmember⟩
  · rintro ⟨hset, hmember⟩
    obtain ⟨row, hrow, rfl, rfl⟩ := Database.mem_listSets.mp hset
    exact ⟨row.validAtRevision,
      mem_membershipsOf.mpr ⟨hstored.mpr ⟨hlisted.mp hset, hmember⟩, hrow⟩⟩

/-- What a check finds in an index that is exact and recent. -/
theorem depthOf (h : Exact True db orgId collation) {set : MembershipSetRef} {member : EntityRef}
    {depth : Nat} :
    (db.indexedView orgId member).depthOf set.object set.relation member = some depth ↔
      set ∈ db.listSets orgId ∧ ⟨member, depth⟩ ∈
        (db.flattenedSet orgId collation set).members := by
  -- Every hit passes the gate, and a member has one depth in a set.
  have hrecent : ∀ hit ∈ db.membershipsOf orgId member,
      hit.validAtRevision.isAtLeast (db.organizationVersion orgId) = true := by
    intro hit hhit
    have hstamp := h.stamps trivial _ (mem_membershipsOf.mp hhit).2 rfl
    simpa [Revision.isAtLeast] using hstamp
  have hone : ∀ {d d' : Nat}, ⟨member, d⟩ ∈ (db.flattenedSet orgId collation set).members →
      ⟨member, d'⟩ ∈ (db.flattenedSet orgId collation set).members → d = d' := by
    intro d d' hd hd'
    obtain ⟨-, hnodup⟩ := flattenSet_shallowest set.object set.relation
      (reindexSnapshot orgId (db.allTuples orgId collation) (db.listByOrg orgId collation))
    have hsame := List.inj_on_of_nodup_map hnodup hd hd' rfl
    exact (FlatMember.mk.inj hsame).2
  -- An entry of the view with the key of the set is a hit on the set.
  have hentry : ∀ {d : Nat}, (db.indexedView orgId member).depthOf set.object set.relation member =
      some d → set ∈ db.listSets orgId ∧
        ⟨member, d⟩ ∈ (db.flattenedSet orgId collation set).members := by
    intro d hd
    unfold Database.indexedView at hd
    dsimp only at hd
    split_ifs at hd
    · obtain ⟨-, e, he, hkey, rfl⟩ := IndexedMemberships.mem_of_depthOf hd
      obtain ⟨hit, hhit, rfl⟩ := List.mem_map.mp he
      obtain ⟨hhit, -⟩ := List.mem_filter.mp hhit
      obtain ⟨hlisted, hmember⟩ := h.membershipsOf.mp ⟨hit.validAtRevision, hhit⟩
      have hwritable := ((h.listed hit.set).mp hlisted).1.writable
      obtain ⟨hobject, hrelation⟩ := nodeKey_inj hwritable hkey
      have hset : hit.set = set := by
        cases hsame : hit.set
        cases set
        simp_all
      rw [hset] at hlisted hmember
      exact ⟨hlisted, hmember⟩
    · cases hd
  constructor
  · exact hentry
  · intro hset
    obtain ⟨validAt, hhit⟩ := h.membershipsOf.mpr hset
    have hsome : ((db.indexedView orgId member).depthOf set.object set.relation member).isSome =
        true := by
      unfold Database.indexedView
      dsimp only
      rw [if_pos (List.length_pos_of_mem hhit)]
      unfold IndexedMemberships.depthOf
      rw [if_neg fun hne => hne rfl]
      refine IndexedMemberships.isSome_keeps (Or.inr ⟨_, List.mem_map.mpr
        ⟨_, List.mem_filter.mpr ⟨hhit, hrecent _ hhit⟩, rfl⟩, rfl⟩)
    obtain ⟨d, hd⟩ := Option.isSome_iff_exists.mp hsome
    rw [hd, hone (hentry hd).2 hset.2]

end Exact

/-! ## Completeness -/

/-- An organization that the cursor has passed. -/
theorem run_exact (collation : String → String → Bool) (options : Nat → MembershipIndexerOptions)
    (steps : List IndexerStep) {db : Database dateParse}
    (hdb : ((Indexers.initial : Indexers dateParse).run collation options steps).db = db)
    (hsmall : ∀ id, (db.tuplesOf orgId).length ≤ (options id).maxTuplesPerOrg)
    (hpassed : (db.organizationVersion orgId).value ≤ db.readCursor.value) :
    Exact False db orgId collation := by
  have hrun : ((Indexers.initial : Indexers dateParse).run collation options steps).Complete False
      (db.tuplesOf orgId).length collation :=
    Indexers.Complete.initial.run options Indexers.Ok.initial Indexers.Alone.initial
      (fun hstamped => hstamped.elim) hsmall fun hstamped => hstamped.elim
  have hindex := hrun.index orgId
  rw [hdb] at hindex
  exact hindex.holds hpassed (le_refl _)

/-- The sets of an index that is exact. -/
theorem Exact.mem_listSets (h : Exact stamped db orgId collation) (set : MembershipSetRef) :
    set ∈ db.listSets orgId ↔
      (∃ tuple ∈ db.tuplesOf orgId, tuple.subject = .userset set.object set.relation) ∧
        (db.flattenedSet orgId collation set).monotonic = true :=
  (h.listed set).trans (and_congr_left fun _ => refers_allTuples)

/-- **The index has everything.**  In every run, for an organization that is not too large and has
no change above the stored cursor, the index lists the sets that some tuple refers to and that have
no exclusion, and finds for a member exactly the sets and depths that flattening finds. -/
theorem index_complete (collation : String → String → Bool)
    (options : Nat → MembershipIndexerOptions) (steps : List IndexerStep) (orgId : OrgId)
    (hsmall : ∀ id, (((Indexers.initial : Indexers dateParse).run collation options
      steps).db.tuplesOf orgId).length ≤ (options id).maxTuplesPerOrg)
    (hpassed : (((Indexers.initial : Indexers dateParse).run collation options
        steps).db.organizationVersion orgId).value ≤
      ((Indexers.initial : Indexers dateParse).run collation options steps).db.readCursor.value) :
    let db := ((Indexers.initial : Indexers dateParse).run collation options steps).db
    (∀ set, set ∈ db.listSets orgId ↔
      (∃ tuple ∈ db.tuplesOf orgId, tuple.subject = .userset set.object set.relation) ∧
        (db.flattenedSet orgId collation set).monotonic = true) ∧
      ∀ set member depth,
        (∃ validAt, ⟨set, depth, validAt⟩ ∈ db.membershipsOf orgId member) ↔
          set ∈ db.listSets orgId ∧
            ⟨member, depth⟩ ∈ (db.flattenedSet orgId collation set).members := by
  intro db
  have hexact : Exact False db orgId collation :=
    run_exact collation options steps rfl hsmall hpassed
  exact ⟨hexact.mem_listSets, fun set member depth => hexact.membershipsOf⟩

open Indexers in
theorem index_complete_viewers :
    let db := ((initial : Indexers fun _ => none).run (fun a b => a ≤ b) (fun _ => ⟨2, 10⟩)
      ([viewersGrant, viewersMember, .start 0] ++ wholeTick 0)).db
    (∀ set, set ∈ db.listSets acme ↔
      (∃ tuple ∈ db.tuplesOf acme, tuple.subject = .userset set.object set.relation) ∧
        (db.flattenedSet acme (fun a b => a ≤ b) set).monotonic = true) ∧
      ∀ set member depth,
        (∃ validAt, ⟨set, depth, validAt⟩ ∈ db.membershipsOf acme member) ↔
          set ∈ db.listSets acme ∧
            ⟨member, depth⟩ ∈ (db.flattenedSet acme (fun a b => a ≤ b) set).members :=
  index_complete (fun a b => a ≤ b) (fun _ => ⟨2, 10⟩)
    ([viewersGrant, viewersMember, .start 0] ++ wholeTick 0) acme (fun _ => by decide) (by decide)

/-- **A check finds what flattening finds.**  In every run whose pages all reach the cursor, for an
organization that is not too large and has no change above the stored cursor, the view of a member
has a depth for exactly the sets of the index that the member is in. -/
theorem index_answers (collation : String → String → Bool)
    (options : Nat → MembershipIndexerOptions) (steps : List IndexerStep) (orgId : OrgId)
    (hreach : (Indexers.initial : Indexers dateParse).pagesReach collation options steps = true)
    (hsmall : ∀ id, (((Indexers.initial : Indexers dateParse).run collation options
      steps).db.tuplesOf orgId).length ≤ (options id).maxTuplesPerOrg)
    (hpassed : (((Indexers.initial : Indexers dateParse).run collation options
        steps).db.organizationVersion orgId).value ≤
      ((Indexers.initial : Indexers dateParse).run collation options steps).db.readCursor.value) :
    let db := ((Indexers.initial : Indexers dateParse).run collation options steps).db
    ∀ set member depth,
      (db.indexedView orgId member).depthOf set.object set.relation member = some depth ↔
        (∃ tuple ∈ db.tuplesOf orgId, tuple.subject = .userset set.object set.relation) ∧
          (db.flattenedSet orgId collation set).monotonic = true ∧
          ⟨member, depth⟩ ∈ (db.flattenedSet orgId collation set).members := by
  intro db set member depth
  have hrun : ((Indexers.initial : Indexers dateParse).run collation options steps).Complete True
      (db.tuplesOf orgId).length collation :=
    Indexers.Complete.initial.run options Indexers.Ok.initial Indexers.Alone.initial
      (fun _ => Indexers.Ahead.initial) hsmall fun _ => hreach
  have hexact := (hrun.index orgId).holds hpassed (le_refl _)
  rw [hexact.depthOf, ← and_assoc]
  exact and_congr_left fun _ => hexact.mem_listSets set

open Indexers in
theorem index_answers_viewers :
    let db := ((initial : Indexers fun _ => none).run (fun a b => a ≤ b) (fun _ => ⟨2, 10⟩)
      ([viewersGrant, viewersMember, .start 0] ++ wholeTick 0)).db
    ∀ set member depth,
      (db.indexedView acme member).depthOf set.object set.relation member = some depth ↔
        (∃ tuple ∈ db.tuplesOf acme, tuple.subject = .userset set.object set.relation) ∧
          (db.flattenedSet acme (fun a b => a ≤ b) set).monotonic = true ∧
          ⟨member, depth⟩ ∈ (db.flattenedSet acme (fun a b => a ≤ b) set).members :=
  index_answers (fun a b => a ≤ b) (fun _ => ⟨2, 10⟩)
    ([viewersGrant, viewersMember, .start 0] ++ wholeTick 0) acme (by decide) (fun _ => by decide)
    (by decide)

end AccessCore
