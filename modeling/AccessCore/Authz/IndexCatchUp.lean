/-
  Whether the index catches up (`authz/application/membership-indexer.ts`).

  Every process runs `runOnce` again and again, by a timer.  When the writers are quiet and no other
  process holds the lock, one process brings the cursor to the current revision
  (`index_catches_up`), wherever it was: a tick that began earlier may first put the cursor back,
  but every tick that begins afterwards brings it forward, by a page or to the end.  From then on
  the index is exact for every organization that is not too large.

  The page must hold at least one entry: with a page size of zero every page is full and empty, and
  no tick goes on.
-/
import AccessCore.Lib.LeadsTo
import AccessCore.Authz.IndexCompleteness

namespace AccessCore

open LeadsTo

variable {dateParse : String → Option Int} {collation : String → String → Bool}
  {options : Nat → MembershipIndexerOptions} {id : Nat}

/-! ## Nothing is above the current revision -/

/-- The namespaces are from the past. -/
def Database.Dated (db : Database dateParse) : Prop :=
  ∀ definition ∈ db.definitions.rows, definition.revision.value ≤ db.current.value

/-- A writer saves a namespace under its own revision, which is then the current one. -/
theorem Database.Dated.write {db : Database dateParse} (h : db.Dated) (operation : AdminOperation)
    {r : Revision} (hr : db.current.value < r.value)
    (hcurrent : db.current.value ≤ (operation.run r db).current.value) :
    (operation.run r db).Dated := by
  have hsame : (operation.run r db).definitions = db.definitions → (operation.run r db).Dated := by
    intro hdefinitions definition hdefinition
    rw [hdefinitions] at hdefinition
    exact le_trans (h definition hdefinition) hcurrent
  cases operation with
  | writeTuple command recordedAt =>
    apply hsame
    show (AdminOperation.committed db
      (RelationTupleWriter.write command recordedAt r db)).definitions = _
    unfold RelationTupleWriter.write
    cases RelationTuple.write command.orgId command.object command.relation command.subject r
        recordedAt with
    | error message => rfl
    | ok tuple => rfl
  | revokeTuple command recordedAt =>
    apply hsame
    show (RelationTupleWriter.revoke command recordedAt r db).2.definitions = _
    unfold RelationTupleWriter.revoke
    dsimp only
    split_ifs
    · rfl
    · rfl
  | defineNamespace command createdAt =>
    show (AdminOperation.committed db
      (NamespaceConfigWriter.define command createdAt r db)).Dated
    unfold NamespaceConfigWriter.define
    split_ifs
    · exact h
    · cases NamespaceConfig.create command.config with
      | error error => exact h
      | ok config =>
        intro definition hdefinition
        have hnew : r.value ≤ (db.allocate r).current.value :=
          Database.le_maxRevision (List.mem_append_right _ (List.mem_singleton_self _))
        show definition.revision.value ≤ (db.allocate r).current.value
        rcases Table.mem_upsertRows hdefinition with rfl | ⟨old, -, -, rfl⟩ | hold
        · exact hnew
        · exact hnew
        · have hbefore := h definition hold
          omega
  | writePolicy command =>
    apply hsame
    show (AdminOperation.committed db (PolicyWriter.write command r db)).definitions = _
    unfold PolicyWriter.write
    split
    · rfl
    · rfl
  | deletePolicy orgId id => exact hsame rfl

theorem Database.Dated.version {db : Database dateParse} (h : db.Dated)
    (hcommitted : db.CommitOrdered)
    (orgId : OrgId) : (db.organizationVersion orgId).value ≤ db.current.value := by
  have hchanges : (Database.maxRevision ((db.changelog.filter fun c => c.orgId = orgId).map
      (·.revision))).value < db.current.value + 1 := by
    refine RevisionStore.maxRevision_lt (fun r hr => ?_) (Nat.succ_pos _)
    obtain ⟨change, hchange, rfl⟩ := List.mem_map.mp hr
    have hle := hcommitted.within change (List.mem_filter.mp hchange).1
    omega
  have hdefinitions : (Database.maxRevision ((db.definitions.select fun d => d.orgId = orgId).map
      (·.revision))).value < db.current.value + 1 := by
    refine RevisionStore.maxRevision_lt (fun r hr => ?_) (Nat.succ_pos _)
    obtain ⟨definition, hdefinition, rfl⟩ := List.mem_map.mp hr
    have hle := h definition (List.mem_filter.mp hdefinition).1
    omega
  unfold Database.organizationVersion
  dsimp only
  omega

namespace Indexers

theorem dated_step {s : Indexers dateParse} (hok : s.Ok) (h : s.db.Dated) (e : IndexerStep) :
    (s.step collation options e).db.Dated := by
  have happlied : ∀ writes, (s.db.applyAll writes).Dated := by
    intro writes definition hdefinition
    rw [(s.db.applyAll_sameStore writes).definitions] at hdefinition
    rw [applyAll_current]
    exact h definition hdefinition
  cases e with
  | write operation skipped =>
    have hnext : s.db.current.value < s.db.current.value + 1 + skipped := by omega
    obtain ⟨-, hcurrent, -⟩ :=
      hok.committed.write operation (r := ⟨s.db.current.value + 1 + skipped⟩) hnext
    exact h.write operation hnext hcurrent
  | start id =>
    dsimp only [Indexers.step]
    cases s.ticks id with
    | some tick => exact h
    | none => exact h
  | next id =>
    dsimp only [Indexers.step]
    cases s.ticks id with
    | none => exact h
    | some tick =>
      dsimp only [Indexers.next]
      cases tick.stage with
      | locking cursor =>
        dsimp only
        split_ifs
        · exact h
        · exact h
      | paging cursor high =>
        dsimp only
        split_ifs
        · exact h
        · exact h
      | reindexing upTo orgs =>
        cases orgs with
        | nil => exact happlied _
        | cons orgId orgs =>
          dsimp only
          split_ifs
          · exact h
          · exact h
      | _ => exact h
  | abort id => exact h

theorem dated_run {s : Indexers dateParse} (hok : s.Ok) (h : s.db.Dated)
    (steps : List IndexerStep) :
    (s.run collation options steps).db.Dated := by
  induction steps generalizing s with
  | nil => exact h
  | cons e steps ih => exact ih (hok.step collation options e) (dated_step hok h e)

/-! ## Rounds -/

section Run

variable (collation : String → String → Bool) (options : Nat → MembershipIndexerOptions)

/-- The process starts a tick unless it runs one, and runs its next statement. -/
def round (id : Nat) (s : Indexers dateParse) : Indexers dateParse :=
  (s.step collation options (.start id)).step collation options (.next id)

end Run

/-- The steps of so many rounds. -/
def rounds (id : Nat) : Nat → List IndexerStep
  | 0 => []
  | n + 1 => .start id :: .next id :: rounds id n

theorem run_rounds (s : Indexers dateParse) (n : Nat) :
    s.run collation options (rounds id n) = (round collation options id)^[n] s := by
  induction n generalizing s with
  | zero => rfl
  | succ n ih =>
    rw [Function.iterate_succ_apply]
    exact ih _

/-- The process is alone: nobody else has the lock, and nobody writes. -/
structure Solo (base : Database dateParse) (id : Nat) (s : Indexers dateParse) : Prop where
  ok : s.Ok
  free : s.holder = none ∨ s.holder = some id
  store : Database.SameStore base s.db

namespace Solo

variable {s : Indexers dateParse} {base : Database dateParse} {tick : Tick}

theorem current (h : Solo base id s) : s.db.current = base.current := by
  unfold Database.current
  rw [h.store.revisions]

theorem setTick (h : Solo base id s) (holder : Option Nat)
    (hholder : holder = none ∨ holder = some id)
    (hok : ({ s.setTick id tick with holder := holder } : Indexers dateParse).Ok) :
    Solo base id { s.setTick id tick with holder := holder } := ⟨hok, hholder, h.store⟩

theorem finish (h : Solo base id s) : Solo base id (s.finish id) := by
  refine ⟨h.ok.finish, ?_, h.store⟩
  show (if s.holder = some id then none else s.holder) = none ∨ _
  rcases h.free with hfree | hmine
  · left
    rw [hfree]
    rfl
  · left
    exact if_pos hmine

/-- A round in which the tick is running. -/
theorem round_of_some (htick : s.ticks id = some tick) :
    round collation options id s = s.next collation options id tick := by
  have hstart : s.step collation options (.start id) = s := by
    dsimp only [Indexers.step]
    rw [htick]
  unfold round
  rw [hstart]
  dsimp only [Indexers.step]
  rw [htick]

/-- A round in which a tick starts. -/
theorem round_of_none (hnone : s.ticks id = none) :
    round collation options id s = (s.setTick id ⟨.locking s.db.readCursor, []⟩).next collation
      options id ⟨.locking s.db.readCursor, []⟩ := by
  have hstart : s.step collation options (.start id) =
      s.setTick id ⟨.locking s.db.readCursor, []⟩ := by
    dsimp only [Indexers.step]
    rw [hnone]
  have hticks : (s.setTick id ⟨.locking s.db.readCursor, []⟩).ticks id =
      some ⟨.locking s.db.readCursor, []⟩ := if_pos rfl
  unfold round
  rw [hstart]
  dsimp only [Indexers.step]
  rw [hticks]

/-- The next statement of the tick, unless it ends with it. -/
theorem goes_on (h : Solo base id s) (htick : s.ticks id = some tick) {tick' : Tick}
    {holder : Option Nat} (hholder : holder = none ∨ holder = some id)
    (hnext : s.next collation options id tick = { s.setTick id tick' with holder := holder })
    {q : Indexers dateParse → Prop}
    (hreaches : ∀ s', Solo base id s' → s'.ticks id = some tick' →
      s'.db.readCursor = s.db.readCursor → Reaches (round collation options id) q s') :
    Reaches (round collation options id) q s := by
  have hok := h.ok.next collation options htick
  apply Reaches.next
  rw [round_of_some htick, hnext]
  rw [hnext] at hok
  exact hreaches _ (h.setTick holder hholder hok) (if_pos rfl) rfl

end Solo

/-! ## A tick ends -/

/-- The tick has ended, and has left this cursor. -/
structure Ended (base : Database dateParse) (id : Nat) (cursor : Revision)
    (s : Indexers dateParse) : Prop where
  solo : Solo base id s
  quiet : s.ticks id = none
  free : s.holder = none
  cursor : s.db.readCursor = cursor

variable {s : Indexers dateParse} {base : Database dateParse} {written : List IndexWrite}

theorem Solo.ended (h : Solo base id s) : Ended base id s.db.readCursor (s.finish id) := by
  refine ⟨h.finish, if_pos rfl, ?_, rfl⟩
  show (if s.holder = some id then none else s.holder) = none
  rcases h.free with hfree | hmine
  · rw [hfree]
    rfl
  · exact if_pos hmine

/-- Going through the organizations that are left. -/
theorem Solo.reindexing (h : Solo base id s) {upTo : Revision} {orgs : List OrgId}
    (htick : s.ticks id = some ⟨.reindexing upTo orgs, written⟩) :
    Reaches (round collation options id) (Ended base id upTo) s := by
  induction orgs generalizing s written with
  | nil =>
    have hok := h.ok.next collation options htick
    have hended := h.ended
    have hstore := s.db.applyAll_sameStore (written ++ [.writeCursor upTo])
    apply Reaches.next
    rw [Solo.round_of_some htick]
    refine Reaches.now ⟨⟨hok, hended.solo.free, ?_⟩, hended.quiet, hended.free,
      s.db.readCursor_applyAll written upTo⟩
    exact ⟨hstore.revisions.trans h.store.revisions, hstore.tuples.trans h.store.tuples,
      hstore.changelog.trans h.store.changelog, hstore.definitions.trans h.store.definitions⟩
  | cons orgId orgs ih =>
    let tuples := s.db.listTuples orgId collation ((options id).maxTuplesPerOrg + 1)
    by_cases hlarge : (options id).maxTuplesPerOrg < tuples.length
    · have hskips : s.next collation options id ⟨.reindexing upTo (orgId :: orgs), written⟩ =
          { s.setTick id ⟨.reindexing upTo orgs, written⟩ with holder := s.holder } :=
        if_pos hlarge
      exact h.goes_on htick h.free hskips fun s' h' htick' _ => ih h' htick'
    · have hloads : s.next collation options id ⟨.reindexing upTo (orgId :: orgs), written⟩ =
          { s.setTick id ⟨.loading upTo orgs orgId tuples, written⟩ with holder := s.holder } :=
        if_neg hlarge
      apply h.goes_on htick h.free hloads
      · intro s₁ h₁ htick₁ _
        apply h₁.goes_on htick₁ h₁.free rfl
        intro s₂ h₂ htick₂ _
        apply h₂.goes_on htick₂ h₂.free rfl
        intro s₃ h₃ htick₃ _
        apply h₃.goes_on htick₃ h₃.free rfl
        intro s₄ h₄ htick₄ _
        exact ih h₄ htick₄

/-- A tick that has its page goes to the end of it. -/
theorem Solo.listing (h : Solo base id s) {cursor upTo : Revision} {changes : List TupleChange}
    (htick : s.ticks id = some ⟨.listing cursor upTo changes, written⟩) :
    Reaches (round collation options id) (Ended base id upTo) s :=
  h.goes_on htick h.free rfl fun _ h' htick' _ => h'.reindexing htick'

/-- A tick that reads its page has come further, unless there was nothing above its cursor. -/
theorem Solo.paging (h : Solo base id s) {cursor high : Revision}
    (htick : s.ticks id = some ⟨.paging cursor high, written⟩) :
    Reaches (round collation options id) (fun s' => ∃ r, Ended base id r s' ∧
      (cursor.value < r.value ∨ r = s.db.readCursor ∧
        (pageEnd (options id).changePageSize cursor high
          (s.db.changesSinceAll collation cursor (options id).changePageSize)).value ≤
            cursor.value)) s := by
  by_cases hidle : (pageEnd (options id).changePageSize cursor high
      (s.db.changesSinceAll collation cursor (options id).changePageSize)).value ≤ cursor.value
  · have hnext : round collation options id s = s.finish id :=
      (Solo.round_of_some htick).trans (if_pos hidle)
    apply Reaches.next
    rw [hnext]
    exact Reaches.now ⟨_, h.ended, Or.inr ⟨rfl, hidle⟩⟩
  · apply h.goes_on htick h.free (if_neg hidle)
    intro s' h' htick' _
    exact (h'.listing htick').imp fun _ hended => ⟨_, hended, Or.inl (Nat.lt_of_not_le hidle)⟩

/-- A page that holds at least one entry, and is read up to the current revision, ends at the cursor
only if the cursor is there. -/
theorem pageEnd_idle {db : Database dateParse} {pageSize : Nat} (hpage : 0 < pageSize)
    {cursor high : Revision}
    (hidle : (pageEnd pageSize cursor high (db.changesSinceAll collation cursor pageSize)).value ≤
      cursor.value) : high.value ≤ cursor.value := by
  unfold pageEnd at hidle
  dsimp only at hidle
  split_ifs at hidle with hfull
  · -- A full page has a last entry, which is above the cursor.
    cases hlast : (db.changesSinceAll collation cursor pageSize).getLast? with
    | none =>
      rw [List.getLast?_eq_none_iff] at hlast
      rw [hlast] at hfull
      rw [← hfull] at hpage
      exact absurd hpage (lt_irrefl _)
    | some change =>
      rw [hlast] at hidle
      have hle : change.revision.value ≤ cursor.value := hidle
      have habove := (mem_changesSinceAll (List.mem_of_getLast? hlast)).2
      omega
  · exact le_trans (Nat.le_max_left _ _) hidle

/-- A tick that has just taken the lock. -/
theorem Solo.reading (h : Solo base id s) (hpage : 0 < (options id).changePageSize)
    {cursor : Revision} (htick : s.ticks id = some ⟨.reading cursor, written⟩) :
    Reaches (round collation options id) (fun s' => ∃ r, Ended base id r s' ∧
      (cursor.value < r.value ∨ r = s.db.readCursor ∧ base.current.value ≤ cursor.value)) s := by
  apply h.goes_on htick h.free rfl
  intro s' h' htick' hcursor
  refine (h'.paging htick').imp fun s'' hs'' => ?_
  obtain ⟨r, hended, hfurther | ⟨rfl, hidle⟩⟩ := hs''
  · exact ⟨r, hended, Or.inl hfurther⟩
  · refine ⟨_, hended, Or.inr ⟨hcursor, ?_⟩⟩
    rw [← h.current]
    exact pageEnd_idle hpage hidle

/-- The tick of a round in which it starts. -/
theorem setTick_setTick (s : Indexers dateParse) (tick tick' : Tick) :
    (s.setTick id tick).setTick id tick' = s.setTick id tick' := by
  unfold Indexers.setTick
  dsimp only
  congr 1
  funext i
  split_ifs <;> rfl

theorem finish_setTick (s : Indexers dateParse) (tick : Tick) :
    (s.setTick id tick).finish id = s.finish id := by
  unfold Indexers.finish Indexers.setTick
  dsimp only
  congr 1
  funext i
  split_ifs <;> rfl

/-- A tick that begins takes the lock. -/
theorem Ended.locks {r : Revision} (h : Ended base id r s) :
    round collation options id s = { s.setTick id ⟨.reading r, []⟩ with holder := some id } := by
  have hnot : ¬ (s.holder.isSome = true) := by
    rw [h.free]
    exact Bool.false_ne_true
  rw [Solo.round_of_none h.quiet, ← h.cursor]
  refine (if_neg hnot).trans ?_
  rw [setTick_setTick]

theorem Ended.locked {r : Revision} (h : Ended base id r s) :
    Solo base id { s.setTick id ⟨.reading r, []⟩ with holder := some id } := by
  refine h.solo.setTick (some id) (Or.inr rfl) (h.solo.ok.setTick (some id) ?_)
  intro r' hr'
  rw [List.mem_singleton.mp hr', ← h.cursor]
  exact h.solo.ok.cursor

/-- **Every tick that begins** brings the cursor forward, unless it is at the current revision. -/
theorem Ended.begins {r : Revision} (h : Ended base id r s)
    (hpage : 0 < (options id).changePageSize) :
    Reaches (round collation options id) (fun s' => ∃ r', Ended base id r' s' ∧
      (r.value < r'.value ∨ r' = r ∧ base.current.value ≤ r.value)) s := by
  apply Reaches.next
  rw [h.locks]
  refine (h.locked.reading hpage (if_pos rfl)).imp fun s' hs' => ?_
  obtain ⟨r', hended, hfurther | ⟨hsame, hidle⟩⟩ := hs'
  · exact ⟨r', hended, Or.inl hfurther⟩
  · exact ⟨r', hended, Or.inr ⟨hsame.trans h.cursor, hidle⟩⟩

/-- The tick that is running, if any, ends. -/
theorem Solo.ends (h : Solo base id s) :
    Reaches (round collation options id) (fun s' => ∃ r, Ended base id r s') s := by
  cases htick : s.ticks id with
  | none =>
    rcases h.free with hfree | hmine
    · exact Reaches.now ⟨_, h, htick, hfree, rfl⟩
    · -- The lock goes when the tick that is started gives up.
      have hround : round collation options id s = s.finish id := by
        have hheld : s.holder.isSome = true := by
          rw [hmine]
          rfl
        rw [Solo.round_of_none htick]
        exact (if_pos hheld).trans (finish_setTick s _)
      apply Reaches.next
      rw [hround]
      exact Reaches.now ⟨_, h.ended⟩
  | some tick =>
    obtain ⟨stage, written⟩ := tick
    have hpaging : ∀ {s : Indexers dateParse} {cursor high : Revision}, Solo base id s →
        s.ticks id = some ⟨.paging cursor high, written⟩ →
          Reaches (round collation options id) (fun s' => ∃ r, Ended base id r s') s :=
      fun h' htick' => (h'.paging htick').imp fun _ ⟨r, hended, _⟩ => ⟨r, hended⟩
    have hreading : ∀ {s : Indexers dateParse} {cursor : Revision}, Solo base id s →
        s.ticks id = some ⟨.reading cursor, written⟩ →
          Reaches (round collation options id) (fun s' => ∃ r, Ended base id r s') s :=
      fun h' htick' => h'.goes_on htick' h'.free rfl fun _ h'' htick'' _ => hpaging h'' htick''
    have hreindexing : ∀ {s : Indexers dateParse} {upTo : Revision} {orgs : List OrgId}
        {written : List IndexWrite}, Solo base id s →
        s.ticks id = some ⟨.reindexing upTo orgs, written⟩ →
          Reaches (round collation options id) (fun s' => ∃ r, Ended base id r s') s :=
      fun h' htick' => (h'.reindexing htick').imp fun _ hended => ⟨_, hended⟩
    cases stage with
    | locking cursor =>
      by_cases hheld : s.holder.isSome = true
      · apply Reaches.next
        have hround : round collation options id s = s.finish id :=
          (Solo.round_of_some htick).trans (if_pos hheld)
        rw [hround]
        exact Reaches.now ⟨_, h.ended⟩
      · apply h.goes_on htick (Or.inr rfl) (if_neg hheld)
        exact fun s' h' htick' _ => hreading h' htick'
    | reading cursor => exact hreading h htick
    | paging cursor high => exact hpaging h htick
    | listing cursor upTo changes => exact (h.listing htick).imp fun _ hended => ⟨_, hended⟩
    | reindexing upTo orgs => exact hreindexing h htick
    | loading upTo orgs orgId tuples =>
      apply h.goes_on htick h.free rfl
      intro s₁ h₁ htick₁ _
      apply h₁.goes_on htick₁ h₁.free rfl
      intro s₂ h₂ htick₂ _
      exact h₂.goes_on htick₂ h₂.free rfl fun _ h₃ htick₃ _ => hreindexing h₃ htick₃
    | flattening upTo orgs orgId snapshot =>
      apply h.goes_on htick h.free rfl
      intro s₁ h₁ htick₁ _
      exact h₁.goes_on htick₁ h₁.free rfl fun _ h₂ htick₂ _ => hreindexing h₂ htick₂
    | sweeping upTo orgs orgId wanted =>
      exact h.goes_on htick h.free rfl fun _ h₁ htick₁ _ => hreindexing h₁ htick₁

/-! ## The cursor arrives -/

/-- **The cursor arrives** at the current revision. -/
theorem Solo.arrives (h : Solo base id s) (hpage : 0 < (options id).changePageSize) :
    Reaches (round collation options id) (Ended base id base.current) s := by
  refine h.ends.trans fun s' hs' => ?_
  refine Reaches.of_decreasing (p := fun s => ∃ r, Ended base id r s)
    (fun s => base.current.value - s.db.readCursor.value) (fun s hs => ?_) hs'
  obtain ⟨r, hended⟩ := hs
  refine (hended.begins hpage).imp fun s' hs' => ?_
  obtain ⟨r', hended', hcloser⟩ := hs'
  have hcursor := hended.cursor
  have hcursor' := hended'.cursor
  have hpast := hended'.solo.ok.cursor
  rw [hended'.solo.current, hcursor'] at hpast
  rcases hcloser with hfurther | ⟨rfl, hdone⟩
  · right
    refine ⟨⟨r', hended'⟩, ?_⟩
    rw [hcursor, hcursor']
    omega
  · left
    have hsame : r' = base.current := by
      cases r'
      cases hbase : base.current
      rw [hbase] at hpast hdone
      exact congrArg _ (le_antisymm hpast hdone)
    rw [← hsame]
    exact hended'

/-- The cursor is at the current revision, and the process has nothing to do. -/
structure Resting (base : Database dateParse) (id : Nat) (s : Indexers dateParse) : Prop where
  solo : Solo base id s
  cursor : s.db.readCursor = base.current
  tick : Ended base id base.current s ∨
    (∃ written, s.ticks id = some ⟨.reading base.current, written⟩) ∨
      ∃ written, s.ticks id = some ⟨.paging base.current base.current, written⟩

theorem Ended.resting (h : Ended base id base.current s) : Resting base id s :=
  ⟨h.solo, h.cursor, Or.inl h⟩

/-- A round at rest: the tick reads an empty page and ends. -/
theorem Resting.round (h : Resting base id s) :
    Resting base id (Indexers.round collation options id s) := by
  obtain ⟨hsolo, hcursor, hended | ⟨written, htick⟩ | ⟨written, htick⟩⟩ := h
  · have hround : Indexers.round collation options id s =
        { s.setTick id ⟨.reading base.current, []⟩ with holder := some id } := hended.locks
    rw [hround]
    exact ⟨hended.locked, hcursor, Or.inr (Or.inl ⟨[], if_pos rfl⟩)⟩
  · have hok := hsolo.ok.next collation options htick
    rw [Solo.round_of_some htick]
    refine ⟨⟨hok, hsolo.free, hsolo.store⟩, hcursor, Or.inr (Or.inr ⟨written, ?_⟩)⟩
    have hnext : (s.next collation options id ⟨.reading base.current, written⟩).ticks id =
        some ⟨.paging base.current s.db.current, written⟩ := if_pos rfl
    rw [hnext, hsolo.current]
  · have hidle : (pageEnd (options id).changePageSize base.current base.current
        (s.db.changesSinceAll collation base.current (options id).changePageSize)).value ≤
          base.current.value := by
      refine pageEnd_le (le_refl _) (le_refl _) fun change hchange => ?_
      have hwithin := hsolo.ok.committed.within change (mem_changesSinceAll hchange).1
      rw [hsolo.current] at hwithin
      exact hwithin
    have hround : Indexers.round collation options id s = s.finish id :=
      (Solo.round_of_some htick).trans (if_pos hidle)
    have hover := hsolo.ended
    rw [hcursor] at hover
    rw [hround]
    exact hover.resting

end Indexers

open Indexers in
/-- **The index catches up.**  After every run in which the process, or nobody, holds the lock: once
nobody writes and no other process runs, the process brings the cursor to the current revision in so
many rounds; and from then on, whatever it does, the index of every organization that is not too
large is what its tuples and its namespaces say. -/
theorem index_catches_up (collation : String → String → Bool)
    (options : Nat → MembershipIndexerOptions) (steps : List IndexerStep) (id : Nat)
    (hpage : 0 < (options id).changePageSize)
    (hfree : ((initial : Indexers dateParse).run collation options steps).holder = none ∨
      ((initial : Indexers dateParse).run collation options steps).holder = some id) :
    ∃ N, ∀ n, N ≤ n →
      let db := ((initial : Indexers dateParse).run collation options (steps ++ rounds id n)).db
      db.readCursor = db.current ∧
        ∀ orgId, (∀ i, (db.tuplesOf orgId).length ≤ (options i).maxTuplesPerOrg) →
          (∀ set, set ∈ db.listSets orgId ↔
            (∃ tuple ∈ db.tuplesOf orgId, tuple.subject = .userset set.object set.relation) ∧
              (db.flattenedSet orgId collation set).monotonic = true) ∧
            ∀ set member depth,
              (∃ validAt, ⟨set, depth, validAt⟩ ∈ db.membershipsOf orgId member) ↔
                set ∈ db.listSets orgId ∧
                  ⟨member, depth⟩ ∈ (db.flattenedSet orgId collation set).members := by
  let s := (initial : Indexers dateParse).run collation options steps
  have hok : s.Ok := Ok.initial.run collation options steps
  have hsolo : Solo s.db id s := ⟨hok, hfree, ⟨rfl, rfl, rfl, rfl⟩⟩
  have harrives : Reaches (round collation options id) (Resting s.db id) s :=
    (hsolo.arrives hpage).imp fun _ => Ended.resting
  obtain ⟨N, hN⟩ := harrives.stays fun _ => Resting.round
  refine ⟨N, fun n hn => ?_⟩
  have hresting := hN n hn
  have hrun : (initial : Indexers dateParse).run collation options (steps ++ rounds id n) =
      (round collation options id)^[n] s := by
    rw [← run_rounds]
    exact List.foldl_append
  intro db
  have hdb : ((initial : Indexers dateParse).run collation options
      (steps ++ rounds id n)).db = db :=
    rfl
  have hcursor : db.readCursor = db.current := by
    rw [← hdb, hrun, hresting.cursor, hresting.solo.current]
  refine ⟨hcursor, fun orgId hsmall => ?_⟩
  have hdated : db.Dated := dated_run Ok.initial (fun definition hdefinition =>
    absurd hdefinition List.not_mem_nil) (steps ++ rounds id n)
  have hcommitted : db.CommitOrdered :=
    (Ok.initial.run collation options (steps ++ rounds id n)).committed
  have hpassed : (db.organizationVersion orgId).value ≤ db.readCursor.value := by
    rw [hcursor]
    exact hdated.version hcommitted orgId
  have hexact := run_exact collation options _ hdb hsmall hpassed
  exact ⟨hexact.mem_listSets, fun set member depth => hexact.membershipsOf⟩

open Indexers in
/-- A tick that began before two others is still waiting with the first cursor. -/
theorem index_catches_up_late :
    ∃ N, ∀ n, N ≤ n →
      let db := ((initial : Indexers fun _ => none).run (fun a b => a ≤ b) (fun _ => ⟨1, 10⟩)
        (([viewersGrant, .start 0, .start 1] ++ wholeTick 1 ++ [viewersMember, .start 1] ++
          wholeTick 1) ++ rounds 0 n)).db
      db.readCursor = db.current ∧
        ∀ orgId, (∀ _ : Nat, (db.tuplesOf orgId).length ≤ 10) →
          (∀ set, set ∈ db.listSets orgId ↔
            (∃ tuple ∈ db.tuplesOf orgId, tuple.subject = .userset set.object set.relation) ∧
              (db.flattenedSet orgId (fun a b => a ≤ b) set).monotonic = true) ∧
            ∀ set member depth,
              (∃ validAt, ⟨set, depth, validAt⟩ ∈ db.membershipsOf orgId member) ↔
                set ∈ db.listSets orgId ∧
                  ⟨member, depth⟩ ∈ (db.flattenedSet orgId (fun a b => a ≤ b) set).members :=
  index_catches_up (fun a b => a ≤ b) (fun _ => ⟨1, 10⟩) _ 0 (by decide) (by decide)

end AccessCore
