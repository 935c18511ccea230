/-
  Whether the indexer goes forward (`authz/application/membership-indexer.ts`).

  A tick reads the cursor before it has the lock.  So it may hold the lock with a cursor that other
  ticks have moved on from; it then reads an old page again, and if that page is full, its end is
  what the tick stamps its sets with and writes back as the cursor: both go backwards
  (`indexer_goes_back`).

  The end of such a page is at the stored cursor or above exactly when the page reaches it, that is
  when fewer entries than a page holds lie between the two cursors (`pageEnd_reaches_iff`).  In
  every run in which all pages reach the stored cursor, the cursor and the stamps only grow
  (`indexer_monotone`).
-/
import AccessCore.Authz.Indexer

namespace AccessCore

variable {dateParse : String → Option Int}

/-! ## Pages -/

/-- A page is the beginning of what is above the cursor. -/
theorem Database.CommitOrdered.changesSinceAll {db : Database dateParse} (h : db.CommitOrdered)
    (collation : String → String → Bool) (cursor : Revision) (limit : Nat) :
    db.changesSinceAll collation cursor limit =
      (db.changelog.filter fun c => cursor.value < c.revision.value).take limit := by
  unfold Database.changesSinceAll
  dsimp only
  congr 1
  apply List.Pairwise.insertionSort_eq
  exact (h.ordered.filter fun c => decide (cursor.value < c.revision.value)).imp fun hlt =>
    Or.inl hlt

/-- The changelog entries between two revisions. -/
def Database.entriesBetween (db : Database dateParse) (low high : Revision) : List TupleChange :=
  (db.changelog.filter fun c => low.value < c.revision.value).filter fun c =>
    c.revision.value < high.value

/-- A tick that goes on has a page that reaches the stored cursor exactly if fewer entries than a
page holds lie below it. -/
theorem pageEnd_reaches_iff {db : Database dateParse} (h : db.CommitOrdered)
    {collation : String → String → Bool} {pageSize : Nat} {cursor high : Revision}
    (hhigh : db.readCursor.value ≤ high.value)
    (hgoes : cursor.value <
      (pageEnd pageSize cursor high (db.changesSinceAll collation cursor pageSize)).value) :
    db.readCursor.value ≤
        (pageEnd pageSize cursor high (db.changesSinceAll collation cursor pageSize)).value ↔
      pageSize = 0 ∨ (db.entriesBetween cursor db.readCursor).length < pageSize := by
  rw [h.changesSinceAll] at hgoes ⊢
  unfold Database.entriesBetween
  have hordered : CommitLog.Ordered TupleChange.position
      (db.changelog.filter fun c => cursor.value < c.revision.value) := h.ordered.filter _
  generalize (db.changelog.filter fun c => cursor.value < c.revision.value) = entries at *
  unfold pageEnd at hgoes ⊢
  dsimp only at hgoes ⊢
  split_ifs at hgoes ⊢ with hfull
  · rcases List.eq_nil_or_concat (entries.take pageSize) with hnil | ⟨front, e, hpage⟩
    · -- An empty page does not go on.
      rw [hnil] at hgoes
      exact absurd hgoes (lt_irrefl _)
    · rw [hpage, List.concat_eq_append, List.length_append, List.length_singleton] at hfull
      have hentries : entries = front ++ e :: entries.drop pageSize := by
        conv_lhs => rw [← List.take_append_drop pageSize entries, hpage]
        simp
      rw [hentries] at hordered
      have hbelow := hordered.lt_iff_length db.readCursor.value
      rw [← hentries] at hbelow
      have hlast : (((entries.take pageSize).getLast?.map (·.revision)).getD cursor) =
          e.revision := by
        rw [hpage, List.concat_eq_append, List.getLast?_concat]
        rfl
      rw [hlast]
      unfold TupleChange.position at hbelow
      constructor
      · intro hle
        right
        have hnot : ¬ e.revision.value < db.readCursor.value := by omega
        rw [hbelow] at hnot
        omega
      · rintro (hzero | hlength)
        · omega
        · have hnot : ¬ e.revision.value < db.readCursor.value := by
            rw [hbelow]
            omega
          omega
  · constructor
    · intro _
      right
      have hle := List.length_filter_le (fun c => decide (c.revision.value < db.readCursor.value))
        entries
      rw [List.length_take] at hfull
      omega
    · intro _
      exact le_trans hhigh (Nat.le_max_left _ _)

namespace Indexers

variable {s s' s'' : Indexers dateParse} {id : Nat} {tick : Tick}

section Run

variable (collation : String → String → Bool) (options : Nat → MembershipIndexerOptions)

/-- A page that is read in this step reaches the stored cursor. -/
def pageReaches (s : Indexers dateParse) : IndexerStep → Bool
  | .next id =>
    match s.ticks id with
    | some ⟨.paging cursor _, _⟩ => (options id).changePageSize = 0 ||
        (s.db.entriesBetween cursor s.db.readCursor).length < (options id).changePageSize
    | _ => true
  | _ => true

/-- All pages of a run reach the stored cursor. -/
def pagesReach : Indexers dateParse → List IndexerStep → Bool
  | _, [] => true
  | s, e :: steps => s.pageReaches options e && pagesReach (s.step collation options e) steps

end Run

/-! ## The invariant -/

/-- The sets are stamped with the end of the page. -/
def Stamped (upTo : Revision) (written : List IndexWrite) : Prop :=
  ∀ orgId set members validAt, .replace orgId set members validAt ∈ written → validAt = upTo

/-- A tick in this stage has the lock. -/
def Locked : TickStage → Prop
  | .locking _ => False
  | _ => True

/-- What a tick is going to commit is not below what is stored. -/
def TickAhead (stored : Revision) (tick : Tick) : Prop :=
  match tick.stage with
  | .locking _ => tick.written = []
  | .reading _ => tick.written = []
  | .paging _ high => stored.value ≤ high.value ∧ tick.written = []
  | .listing _ upTo _ => stored.value ≤ upTo.value ∧ tick.written = []
  | .reindexing upTo _ => stored.value ≤ upTo.value ∧ Stamped upTo tick.written
  | .loading upTo _ _ _ => stored.value ≤ upTo.value ∧ Stamped upTo tick.written
  | .flattening upTo _ _ _ => stored.value ≤ upTo.value ∧ Stamped upTo tick.written
  | .sweeping upTo _ _ _ => stored.value ≤ upTo.value ∧ Stamped upTo tick.written

structure Ahead (s : Indexers dateParse) : Prop where
  ok : s.Ok
  stamps : ∀ row ∈ s.db.membershipSets.rows, row.validAtRevision.value ≤ s.db.readCursor.value
  alone : ∀ id tick, s.ticks id = some tick → Locked tick.stage → s.holder = some id
  ticks : ∀ id tick, s.ticks id = some tick → TickAhead s.db.readCursor tick

/-- Between two states the cursor has grown, and so has every stamp that has changed. -/
structure Forward (s s' : Indexers dateParse) : Prop where
  cursor : s.db.readCursor.value ≤ s'.db.readCursor.value
  stamps : ∀ row ∈ s'.db.membershipSets.rows,
    row ∈ s.db.membershipSets.rows ∨ s.db.readCursor.value ≤ row.validAtRevision.value

theorem Forward.refl (s : Indexers dateParse) : Forward s s :=
  ⟨le_refl _, fun _ hrow => Or.inl hrow⟩

theorem Forward.trans (h : Forward s s') (h' : Forward s' s'') : Forward s s'' := by
  refine ⟨le_trans h.cursor h'.cursor, fun row hrow => ?_⟩
  rcases h'.stamps row hrow with hrow | hstamp
  · exact h.stamps row hrow
  · exact Or.inr (le_trans h.cursor hstamp)

theorem readCursor_eq {db db' : Database dateParse} (h : Database.SameIndex db db') :
    db'.readCursor = db.readCursor := by
  unfold Database.readCursor
  rw [h.indexCursor]

/-- A step that does not touch the index. -/
theorem Forward.of_sameIndex (h : Database.SameIndex s.db s'.db) : Forward s s' := by
  constructor
  · rw [readCursor_eq h]
  · intro row hrow
    rw [h.membershipSets] at hrow
    exact Or.inl hrow

theorem Ahead.initial : (Indexers.initial : Indexers dateParse).Ahead where
  ok := Ok.initial
  stamps row hrow := absurd hrow List.not_mem_nil
  alone id tick h := by cases h
  ticks id tick h := by cases h

/-- A tick that has the lock goes on. -/
theorem Ahead.move (h : s.Ahead) (htick : s.ticks id = some tick) (hlocked : Locked tick.stage)
    {tick' : Tick} (hok : (s.setTick id tick').Ok) (hahead : TickAhead s.db.readCursor tick') :
    (s.setTick id tick').Ahead where
  ok := hok
  stamps := h.stamps
  alone i t ht hlock := by
    have hcases : (if i = id then some tick' else s.ticks i) = some t := ht
    split_ifs at hcases with hi
    · rw [hi]
      exact h.alone id tick htick hlocked
    · exact h.alone i t hcases hlock
  ticks i t ht := by
    have hcases : (if i = id then some tick' else s.ticks i) = some t := ht
    split_ifs at hcases with hi
    · obtain rfl := Option.some.inj hcases
      exact hahead
    · exact h.ticks i t hcases

theorem Ahead.finish (h : s.Ahead) (id : Nat) : (s.finish id).Ahead where
  ok := h.ok.finish
  stamps := h.stamps
  alone i t ht hlock := by
    have hcases : (if i = id then none else s.ticks i) = some t := ht
    split_ifs at hcases with hi
    have hholder := h.alone i t hcases hlock
    show (if s.holder = some id then none else s.holder) = some i
    rw [hholder, if_neg fun heq => hi (Option.some.inj heq)]
  ticks i t ht := by
    have hcases : (if i = id then none else s.ticks i) = some t := ht
    split_ifs at hcases with hi
    exact h.ticks i t hcases

/-- A writer changes nothing of what a tick knows. -/
theorem Ahead.write (h : s.Ahead) (operation : AdminOperation) (skipped : Nat) :
    ({ s with db := operation.run ⟨s.db.current.value + 1 + skipped⟩ s.db } :
      Indexers dateParse).Ahead := by
  have hindex := Database.run_sameIndex s.db operation ⟨s.db.current.value + 1 + skipped⟩
  constructor
  · exact h.ok.write operation skipped
  · intro row hrow
    rw [readCursor_eq hindex]
    exact h.stamps row (hindex.membershipSets ▸ hrow)
  · exact h.alone
  · intro i t ht
    rw [readCursor_eq hindex]
    exact h.ticks i t ht

/-- A tick starts without the lock. -/
theorem Ahead.start (h : s.Ahead) (id : Nat) :
    (s.setTick id ⟨.locking s.db.readCursor, []⟩).Ahead where
  ok := by
    refine h.ok.setTick s.holder fun r hr => ?_
    rw [List.mem_singleton.mp hr]
    exact h.ok.cursor
  stamps := h.stamps
  alone i t ht hlock := by
    have hcases : (if i = id then some ⟨.locking s.db.readCursor, []⟩ else s.ticks i) = some t := ht
    split_ifs at hcases with hi
    · obtain rfl := Option.some.inj hcases
      exact absurd hlock not_false
    · exact h.alone i t hcases hlock
  ticks i t ht := by
    have hcases : (if i = id then some ⟨.locking s.db.readCursor, []⟩ else s.ticks i) = some t := ht
    split_ifs at hcases with hi
    · obtain rfl := Option.some.inj hcases
      rfl
    · exact h.ticks i t hcases

/-- A tick takes the lock that nobody has. -/
theorem Ahead.lock (h : s.Ahead) {cursor : Revision} {written : List IndexWrite}
    (htick : s.ticks id = some ⟨.locking cursor, written⟩) (hfree : s.holder = none) :
    ({ s.setTick id ⟨.reading cursor, written⟩ with holder := some id } :
      Indexers dateParse).Ahead where
  ok := by
    have hbound := h.ok.ticks id _ htick
    exact h.ok.setTick (some id) hbound
  stamps := h.stamps
  alone i t ht hlock := by
    have hcases : (if i = id then some ⟨.reading cursor, written⟩ else s.ticks i) = some t := ht
    split_ifs at hcases with hi
    · rw [hi]
    · have hholder := h.alone i t hcases hlock
      rw [hfree] at hholder
      cases hholder
  ticks i t ht := by
    have hcases : (if i = id then some ⟨.reading cursor, written⟩ else s.ticks i) = some t := ht
    split_ifs at hcases with hi
    · obtain rfl := Option.some.inj hcases
      have hnone := h.ticks id _ htick
      exact hnone
    · exact h.ticks i t hcases

/-- The holder of the lock commits: nobody else is past the lock, and what it stores is not below
what was stored. -/
theorem Ahead.commit (h : s.Ahead) {upTo : Revision} {written : List IndexWrite}
    (htick : s.ticks id = some ⟨.reindexing upTo [], written⟩) :
    Ahead { s.finish id with db := s.db.applyAll (written ++ [.writeCursor upTo]) } ∧
      Forward s { s.finish id with db := s.db.applyAll (written ++ [.writeCursor upTo]) } := by
  obtain ⟨hahead, hstamped⟩ : s.db.readCursor.value ≤ upTo.value ∧ Stamped upTo written :=
    h.ticks id _ htick
  have hupTo : upTo.value ≤ s.db.current.value := h.ok.ticks id _ htick upTo List.mem_cons_self
  have hholder : s.holder = some id := h.alone id _ htick trivial
  have hrows : ∀ row ∈ (s.db.applyAll (written ++ [.writeCursor upTo])).membershipSets.rows,
      row ∈ s.db.membershipSets.rows ∨ row.validAtRevision = upTo := by
    intro row hrow
    rcases Database.mem_sets_applyAll hrow with hold | ⟨members, hwrite⟩
    · exact Or.inl hold
    · rcases List.mem_append.mp hwrite with hwrite | hwrite
      · exact Or.inr (hstamped _ _ _ _ hwrite)
      · cases List.mem_singleton.mp hwrite
  have hcursor := s.db.readCursor_applyAll written upTo
  constructor
  · constructor
    · exact h.ok.commit hupTo
    · intro row hrow
      rw [hcursor]
      rcases hrows row hrow with hold | hnew
      · exact le_trans (h.stamps row hold) hahead
      · rw [hnew]
    · exact (h.finish id).alone
    · intro i t ht
      rw [hcursor]
      have hcases : (if i = id then none else s.ticks i) = some t := ht
      split_ifs at hcases with hi
      obtain ⟨stage, w⟩ := t
      cases stage with
      | locking cursor => exact h.ticks i _ hcases
      | _ =>
        have hother := h.alone i _ hcases trivial
        rw [hholder] at hother
        exact absurd (Option.some.inj hother).symm hi
  · constructor
    · rw [hcursor]
      exact hahead
    · intro row hrow
      rcases hrows row hrow with hold | hnew
      · exact Or.inl hold
      · right
        rw [hnew]
        exact hahead

variable (collation : String → String → Bool) (options : Nat → MembershipIndexerOptions)

/-- The statement of a tick whose page, if it reads one, reaches the stored cursor. -/
theorem Ahead.next (h : s.Ahead) (htick : s.ticks id = some tick)
    (hreaches : s.pageReaches options (.next id) = true) :
    (s.next collation options id tick).Ahead ∧ Forward s (s.next collation options id tick) := by
  have hok := h.ok.next collation options htick
  have hahead := h.ticks id tick htick
  obtain ⟨stage, written⟩ := tick
  have hmove : ∀ tick' : Tick, Locked stage → (s.setTick id tick').Ok →
      TickAhead s.db.readCursor tick' →
      (s.setTick id tick').Ahead ∧ Forward s (s.setTick id tick') := by
    intro tick' hlocked hok' hahead'
    exact ⟨h.move htick hlocked hok' hahead', Forward.of_sameIndex (Database.SameIndex.refl _)⟩
  have hfinish : (s.finish id).Ahead ∧ Forward s (s.finish id) :=
    ⟨h.finish id, Forward.of_sameIndex (Database.SameIndex.refl _)⟩
  unfold Indexers.next at hok ⊢
  cases stage with
  | locking cursor =>
    dsimp only at hok ⊢
    cases hholder : s.holder with
    | some other => exact hfinish
    | none =>
      exact ⟨h.lock htick hholder, Forward.of_sameIndex (Database.SameIndex.refl _)⟩
  | reading cursor => exact hmove _ trivial hok ⟨h.ok.cursor, hahead⟩
  | paging cursor high =>
    obtain ⟨hhigh, hnone⟩ := hahead
    dsimp only at hok ⊢
    split_ifs at hok ⊢ with hidle
    · exact hfinish
    · have hgoes := Nat.lt_of_not_le hidle
      have hpage : (options id).changePageSize = 0 ∨
          (s.db.entriesBetween cursor s.db.readCursor).length < (options id).changePageSize := by
        dsimp only [pageReaches] at hreaches
        rw [htick] at hreaches
        simpa using hreaches
      exact hmove _ trivial hok
        ⟨(pageEnd_reaches_iff h.ok.committed hhigh hgoes).mpr hpage, hnone⟩
  | listing cursor upTo changes =>
    obtain ⟨hupTo, hnone⟩ := hahead
    refine hmove _ trivial hok ⟨hupTo, ?_⟩
    dsimp only at hnone ⊢
    rw [hnone]
    intro orgId set members validAt hmem
    cases hmem
  | reindexing upTo orgs =>
    cases orgs with
    | nil => exact h.commit htick
    | cons orgId orgs =>
      dsimp only at hok ⊢
      split_ifs at hok ⊢
      · exact hmove _ trivial hok hahead
      · exact hmove _ trivial hok hahead
  | loading upTo orgs orgId tuples => exact hmove _ trivial hok hahead
  | flattening upTo orgs orgId snapshot => exact hmove _ trivial hok hahead
  | sweeping upTo orgs orgId wanted =>
    obtain ⟨hupTo, hstamped⟩ := hahead
    refine hmove _ trivial hok ⟨hupTo, ?_⟩
    intro org set members validAt hmem
    rcases List.mem_append.mp hmem with hmem | hmem
    · exact hstamped org set members validAt hmem
    · unfold reindexWrites at hmem
      rcases List.mem_append.mp hmem with hmem | hmem
      · obtain ⟨_, -, heq⟩ := List.mem_map.mp hmem
        cases heq
      · obtain ⟨_, -, heq⟩ := List.mem_map.mp hmem
        cases heq
        rfl

/-- **The step lemma.** -/
theorem Ahead.step (h : s.Ahead) {e : IndexerStep} (hreaches : s.pageReaches options e = true) :
    (s.step collation options e).Ahead ∧ Forward s (s.step collation options e) := by
  cases e with
  | write operation skipped =>
    exact ⟨h.write operation skipped, Forward.of_sameIndex (Database.run_sameIndex _ _ _)⟩
  | start id =>
    dsimp only [Indexers.step]
    cases htick : s.ticks id with
    | some tick => exact ⟨h, Forward.refl s⟩
    | none => exact ⟨h.start id, Forward.of_sameIndex (Database.SameIndex.refl _)⟩
  | next id =>
    dsimp only [Indexers.step]
    cases htick : s.ticks id with
    | some tick => exact h.next collation options htick hreaches
    | none => exact ⟨h, Forward.refl s⟩
  | abort id => exact ⟨h.finish id, Forward.of_sameIndex (Database.SameIndex.refl _)⟩

/-- **The run lemma.** -/
theorem Ahead.run (h : s.Ahead) {steps : List IndexerStep}
    (hreach : s.pagesReach collation options steps = true) :
    (s.run collation options steps).Ahead ∧ Forward s (s.run collation options steps) := by
  induction steps generalizing s with
  | nil => exact ⟨h, Forward.refl s⟩
  | cons e steps ih =>
    obtain ⟨hfirst, hrest⟩ := Bool.and_eq_true_iff.mp hreach
    obtain ⟨hstep, hforward⟩ := h.step collation options hfirst
    obtain ⟨hrun, hforward'⟩ := ih hstep hrest
    exact ⟨hrun, hforward.trans hforward'⟩

/-- What goes forward does not lower the stamp of a set that both states have. -/
theorem Forward.validAt_le (h : Forward s s') (hs : s.Ahead) {row row' : MembershipSetRow}
    (hrow : row ∈ s.db.membershipSets.rows) (hrow' : row' ∈ s'.db.membershipSets.rows)
    (hkey : setRowKey row = setRowKey row') :
    row.validAtRevision.value ≤ row'.validAtRevision.value := by
  rcases h.stamps row' hrow' with hold | hstamp
  · rw [Table.eq_of_key hrow hold hkey]
  · have hstored := hs.stamps row hrow
    omega

theorem pagesReach_append (s : Indexers dateParse) (before after : List IndexerStep) :
    s.pagesReach collation options (before ++ after) =
      (s.pagesReach collation options before &&
        (s.run collation options before).pagesReach collation options after) := by
  induction before generalizing s with
  | nil => rfl
  | cons e before ih =>
    have hrest := ih (s.step collation options e)
    calc s.pagesReach collation options (e :: before ++ after)
        = (s.pageReaches options e &&
            (s.step collation options e).pagesReach collation options (before ++ after)) := rfl
      _ = ((s.pageReaches options e &&
            (s.step collation options e).pagesReach collation options before) &&
            ((s.step collation options e).run collation options before).pagesReach collation
              options after) := by rw [hrest, Bool.and_assoc]

/-! ## Forward and back -/

/-- When all pages reach the stored cursor, neither the cursor nor the stamp of a set that is in the
index at two points of a run decreases from the one to the other. -/
theorem indexer_monotone (before after : List IndexerStep)
    (h : (initial : Indexers dateParse).pagesReach collation options (before ++ after) = true) :
    let earlier := (initial : Indexers dateParse).run collation options before
    let later := (initial : Indexers dateParse).run collation options (before ++ after)
    earlier.db.readCursor.value ≤ later.db.readCursor.value ∧
      ∀ row ∈ earlier.db.membershipSets.rows, ∀ row' ∈ later.db.membershipSets.rows,
        setRowKey row = setRowKey row' →
          row.validAtRevision.value ≤ row'.validAtRevision.value := by
  rw [pagesReach_append] at h
  obtain ⟨hbefore, hafter⟩ := Bool.and_eq_true_iff.mp h
  obtain ⟨hearlier, -⟩ := Ahead.initial.run collation options hbefore
  obtain ⟨-, hforward⟩ := hearlier.run collation options hafter
  intro earlier later
  have hlater : later = earlier.run collation options after := List.foldl_append
  rw [hlater]
  constructor
  · exact hforward.cursor
  · intro row hrow row' hrow' hkey
    exact hforward.validAt_le hearlier hrow hrow' hkey

theorem indexer_monotone_viewers :
    let earlier := (initial : Indexers fun _ => none).run (fun a b => a ≤ b) (fun _ => ⟨2, 10⟩)
      ([viewersGrant, .start 0] ++ wholeTick 0)
    let later := (initial : Indexers fun _ => none).run (fun a b => a ≤ b) (fun _ => ⟨2, 10⟩)
      (([viewersGrant, .start 0] ++ wholeTick 0) ++ ([viewersMember, .start 1] ++ wholeTick 1))
    earlier.db.readCursor.value ≤ later.db.readCursor.value ∧
      ∀ row ∈ earlier.db.membershipSets.rows, ∀ row' ∈ later.db.membershipSets.rows,
        setRowKey row = setRowKey row' →
          row.validAtRevision.value ≤ row'.validAtRevision.value :=
  indexer_monotone _ _ _ _ (by decide)

/-- The first tick reads the cursor; the second brings the index to the first and then to the second
revision; the first, its page full with the first revision, brings it back. -/
theorem indexer_goes_back :
    let before := [viewersGrant, .start 0, .start 1] ++ wholeTick 1 ++ [viewersMember, .start 1] ++
      wholeTick 1
    let earlier := (initial : Indexers fun _ => none).run (fun a b => a ≤ b)
      (fun _ => ⟨1, 10⟩) before
    let later := (initial : Indexers fun _ => none).run (fun a b => a ≤ b) (fun _ => ⟨1, 10⟩)
      (before ++ wholeTick 0)
    later.db.readCursor.value < earlier.db.readCursor.value ∧
      (earlier.db.membershipSets.get viewersGroup).map (·.validAtRevision) = some ⟨2⟩ ∧
      (later.db.membershipSets.get viewersGroup).map (·.validAtRevision) = some ⟨1⟩ := by
  decide

end Indexers

end AccessCore
