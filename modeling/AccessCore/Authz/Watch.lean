/-
  The watch stream (`authz/application/tuple-change-stream.ts`,
  `authz/infrastructure/persistence/drizzle-relation-tuple-changelog.ts`).

  A stream polls: it reads the current revision, then a page of its organization's changelog after
  its cursor, and emits the page; when the page was not full and a heartbeat is due, it moves the
  cursor to the revision it has read and emits that.  The two reads are statements of their own, and
  writers of any organization commit in between.  A client that is cut off resumes from the last
  event it got.

  The clock is read where the code reads it, and any readings are allowed.  Writers commit in the
  order of their revisions, with gaps.

  What was emitted is at every moment the changelog between the first cursor and the last one
  (`watch_exact`).  The advance of a heartbeat is safe because the revision was read before the
  page: an entry up to it was already there when the page was read.
-/
import AccessCore.Lib.CommitLog
import AccessCore.Authz.Writers

namespace AccessCore

variable {dateParse : String → Option Int}

/-! ## The changelog -/

/-- `DrizzleRelationTupleChangelog.since`. -/
def Database.changesSince (db : Database dateParse) (collation : String → String → Bool)
    (orgId : OrgId) (afterRevision : Revision) (limit : Nat) : List TupleChange :=
  let columns (change : TupleChange) : List String :=
    [change.object.type, change.object.id, change.relation, change.subject]
  ((db.changelog.filter fun change => change.orgId = orgId &&
    afterRevision.value < change.revision.value).insertionSort
      fun a b => a.revision.value < b.revision.value ∨ (a.revision = b.revision ∧
        columnsLe collation (columns a) (columns b) = true)).take limit

/-- The entries of an organization, in the order they were committed in. -/
def Database.changelogOf (db : Database dateParse) (orgId : OrgId) : List TupleChange :=
  db.changelog.filter fun change => change.orgId = orgId

/-- The position of an entry. -/
def TupleChange.position (change : TupleChange) : Nat := change.revision.value

/-! ## The stream -/

inductive WatchEvent where
  | change (change : TupleChange)
  | heartbeat (revision : Revision)

def WatchEvent.revision : WatchEvent → Revision
  | .change entry => entry.revision
  | .heartbeat revision => revision

structure TupleChangeStreamOptions where
  pageSize : Nat
  heartbeatSeconds : Int
  maxStreamSeconds : Int

/-- The next statement of a stream: it reads the revision to start from, checks the loop condition,
    reads the current revision, reads a page, emits it, checks whether a heartbeat is due. -/
inductive StreamStage where
  | opening
  | polling
  | reading
  | paging (high : Revision)
  | emitting (high : Revision) (page : List TupleChange) (full : Bool)
  | beating (high : Revision)

/-- The variables of `stream`. -/
structure OpenStream where
  deadline : Int
  cursor : Revision
  beatAt : Int
  stage : StreamStage

/-- The tables, the stream a client has open, the cursor it started from first, and all the events
    it got. -/
structure Watch (dateParse : String → Option Int) where
  db : Database dateParse
  closing : Bool
  stream : Option OpenStream
  first : Revision
  emitted : List WatchEvent

/-- A writer commits, the client connects or is cut off, the server closes its streams, the stream
    goes on. -/
inductive WatchStep where
  | write (operation : AdminOperation) (skipped : Nat)
  | connect (since : Option Revision) (now : Int)
  | disconnect
  | close
  | next (now : Int)

namespace Watch

def initial : Watch dateParse := ⟨Database.empty, false, none, ⟨0⟩, []⟩

/-- The last cursor. -/
def last (watch : Watch dateParse) : Revision :=
  (watch.emitted.getLast?.map (·.revision)).getD watch.first

/-- A client resumes from the last event; one that has none starts anywhere up to the current
    revision, or at it. -/
def mayConnect (watch : Watch dateParse) (since : Option Revision) : Bool :=
  match watch.emitted.getLast? with
  | some event => since = some event.revision
  | none => since.all fun r => r.value ≤ watch.db.current.value

section Run

variable (collation : String → String → Bool) (options : TupleChangeStreamOptions) (orgId : OrgId)

/-- The next statement of `stream`. -/
def next (watch : Watch dateParse) (stream : OpenStream) (now : Int) : Watch dateParse :=
  match stream.stage with
  | .opening => { watch with
      first := watch.db.current
      stream := some { stream with cursor := watch.db.current, stage := .polling } }
  | .polling =>
    if !watch.closing && now < stream.deadline then
      { watch with stream := some { stream with stage := .reading } }
    else { watch with stream := none }
  | .reading => { watch with stream := some { stream with stage := .paging watch.db.current } }
  | .paging high =>
    let page := watch.db.changesSince collation orgId stream.cursor options.pageSize
    { watch with
      stream := some { stream with stage := .emitting high page (page.length = options.pageSize) } }
  | .emitting high (change :: page) full => { watch with
      stream := some { stream with
        cursor := change.revision
        stage := .emitting high page full }
      emitted := watch.emitted ++ [.change change] }
  | .emitting high [] full => { watch with
      stream := some { stream with stage := if full then .polling else .beating high } }
  | .beating high =>
    if options.heartbeatSeconds * 1000 ≤ now - stream.beatAt then
      let cursor := if high.isAtLeast stream.cursor then high else stream.cursor
      { watch with
        stream := some { stream with beatAt := now, cursor := cursor, stage := .polling }
        emitted := watch.emitted ++ [.heartbeat cursor] }
    else { watch with stream := some { stream with stage := .polling } }

/-- One step; one that cannot happen changes nothing. -/
def step (watch : Watch dateParse) : WatchStep → Watch dateParse
  | .write operation skipped =>
    { watch with db := operation.run ⟨watch.db.current.value + 1 + skipped⟩ watch.db }
  | .connect since now =>
    if watch.stream.isNone && watch.mayConnect since then
      let deadline := now + options.maxStreamSeconds * 1000
      match since with
      | some r => { watch with
          first := if watch.emitted.isEmpty then r else watch.first
          stream := some ⟨deadline, r, now, .polling⟩ }
      | none => { watch with stream := some ⟨deadline, ⟨0⟩, now, .opening⟩ }
    else watch
  | .disconnect => { watch with stream := none }
  | .close => { watch with closing := true }
  | .next now =>
    match watch.stream with
    | some stream => watch.next collation options orgId stream now
    | none => watch

def run (watch : Watch dateParse) (steps : List WatchStep) : Watch dateParse :=
  steps.foldl (step collation options orgId) watch

end Run

end Watch

/-! ## Commits in order -/

/-- The changelog is in commit order and within the current revision. -/
structure Database.CommitOrdered (db : Database dateParse) : Prop where
  ordered : CommitLog.Ordered TupleChange.position db.changelog
  within : ∀ change ∈ db.changelog, change.revision.value ≤ db.current.value

/-- A write above the current revision keeps that, moves the current revision up and appends entries
    above the old one. -/
theorem Database.CommitOrdered.write {db : Database dateParse} (h : db.CommitOrdered)
    (operation : AdminOperation) {r : Revision} (hr : db.current.value < r.value) :
    (operation.run r db).CommitOrdered ∧
      db.current.value ≤ (operation.run r db).current.value ∧
      ∃ entries, (operation.run r db).changelog = db.changelog ++ entries ∧
        ∀ e ∈ entries, db.current.value < e.revision.value := by
  rcases operation.run_log r db with hrefused | ⟨hrevisions, entries, hchangelog, hlength, hentries⟩
  · rw [hrefused]
    refine ⟨h, le_refl _, [], ?_, fun e he => absurd he List.not_mem_nil⟩
    rw [List.append_nil]
  · have hcurrent : (operation.run r db).current.value = r.value := by
      unfold Database.current at hr ⊢
      rw [hrevisions, Database.maxRevision_append]
      omega
    have habove : ∀ e ∈ entries, db.current.value < e.revision.value := by
      intro e he
      rw [hentries e he]
      exact hr
    refine ⟨⟨?_, ?_⟩, by omega, entries, hchangelog, habove⟩
    · rw [hchangelog]
      refine List.pairwise_append.mpr ⟨h.ordered, ?_, ?_⟩
      · match entries, hlength with
        | [], _ => exact List.Pairwise.nil
        | [e], _ => exact List.pairwise_singleton _ _
      · intro a ha b hb
        have hle := h.within a ha
        have hlt := habove b hb
        unfold TupleChange.position
        omega
    · rw [hchangelog, hcurrent]
      intro e he
      rcases List.mem_append.mp he with he | he
      · have hle := h.within e he
        omega
      · rw [hentries e he]

/-- A page is the beginning of what is above the cursor. -/
theorem Database.CommitOrdered.changesSince {db : Database dateParse} (h : db.CommitOrdered)
    (collation : String → String → Bool) (orgId : OrgId) (cursor : Revision) (limit : Nat) :
    db.changesSince collation orgId cursor limit =
      (CommitLog.window TupleChange.position cursor.value db.current.value
        (db.changelogOf orgId)).take limit := by
  have hfilter : (db.changelog.filter fun change => change.orgId = orgId &&
      cursor.value < change.revision.value) =
      CommitLog.window TupleChange.position cursor.value db.current.value
        (db.changelogOf orgId) := by
    unfold CommitLog.window Database.changelogOf
    rw [List.filter_filter]
    refine List.filter_congr fun change hchange => ?_
    have hle := h.within change hchange
    unfold TupleChange.position
    rw [Bool.and_comm]
    simp [hle]
  unfold Database.changesSince
  dsimp only
  rw [hfilter]
  congr 1
  apply List.Pairwise.insertionSort_eq
  have hordered :=
    (h.ordered.filter fun change => decide (change.orgId = orgId)).filter fun change =>
      decide (cursor.value < change.position) && decide (change.position ≤ db.current.value)
  exact hordered.imp fun hlt => Or.inl hlt

/-! ## The invariant -/

/-- The entries among the events. -/
def changesOf (events : List WatchEvent) : List TupleChange :=
  events.filterMap fun
    | .change entry => some entry
    | .heartbeat _ => none

namespace Watch

variable {orgId : OrgId} {watch : Watch dateParse}

/-- The entries of an organization above one cursor, up to another. -/
def between (watch : Watch dateParse) (orgId : OrgId) (low high : Revision) : List TupleChange :=
  CommitLog.window TupleChange.position low.value high.value (watch.db.changelogOf orgId)

/-- What a stream knows at each of its statements. -/
def StreamOk (watch : Watch dateParse) (orgId : OrgId) (stream : OpenStream) : Prop :=
  match stream.stage with
  | .opening => watch.emitted = []
  | .polling => stream.cursor = watch.last
  | .reading => stream.cursor = watch.last
  | .paging high => stream.cursor = watch.last ∧ high.value ≤ watch.db.current.value
  | .emitting high page full => stream.cursor = watch.last ∧
      ∃ top : Revision, top.value ≤ watch.db.current.value ∧ stream.cursor.value ≤ top.value ∧
        page = watch.between orgId stream.cursor top ∧
        (full = false → high.value ≤ top.value)
  | .beating high => stream.cursor = watch.last ∧ high.value ≤ watch.db.current.value ∧
      watch.between orgId stream.cursor high = []

structure Ok (orgId : OrgId) (watch : Watch dateParse) : Prop where
  committed : watch.db.CommitOrdered
  bounded : ∀ event ∈ watch.emitted, event.revision.value ≤ watch.db.current.value
  first_le : watch.first.value ≤ watch.last.value
  last_le : watch.last.value ≤ watch.db.current.value
  sorted : watch.emitted.Pairwise fun a b => a.revision.value ≤ b.revision.value
  emitted : ∀ earlier event later, watch.emitted = earlier ++ event :: later →
    changesOf (earlier ++ [event]) = watch.between orgId watch.first event.revision
  sofar : changesOf watch.emitted = watch.between orgId watch.first watch.last
  stream : ∀ stream, watch.stream = some stream → watch.StreamOk orgId stream

theorem Ok.initial : Ok orgId (Watch.initial : Watch dateParse) where
  committed := ⟨.nil, fun change hchange => absurd hchange List.not_mem_nil⟩
  bounded event hevent := absurd hevent List.not_mem_nil
  first_le := le_refl _
  last_le := le_refl _
  sorted := .nil
  emitted earlier event later h := by
    have hlength := congrArg List.length h
    simp [Watch.initial] at hlength
  sofar := rfl
  stream stream h := by cases h

theorem last_emit (watch : Watch dateParse) (event : WatchEvent) :
    ({ watch with emitted := watch.emitted ++ [event] } : Watch dateParse).last =
      event.revision := by
  unfold last
  rw [List.getLast?_concat]
  rfl

/-- Only the stream changes. -/
theorem Ok.move (h : watch.Ok orgId) {stream : Option OpenStream}
    (hstream : ∀ t, stream = some t → watch.StreamOk orgId t) :
    Ok orgId { watch with stream := stream } where
  committed := h.committed
  bounded := h.bounded
  first_le := h.first_le
  last_le := h.last_le
  sorted := h.sorted
  emitted := h.emitted
  sofar := h.sofar
  stream := hstream

/-- Before anything was emitted, a stream may start at any cursor up to the current revision. -/
theorem Ok.start (h : watch.Ok orgId) (hnone : watch.emitted = []) {r : Revision}
    (hr : r.value ≤ watch.db.current.value) {deadline now : Int} :
    Ok orgId { watch with first := r, stream := some ⟨deadline, r, now, .polling⟩ } := by
  have hlast : ({ watch with
      first := r
      stream := some ⟨deadline, r, now, .polling⟩ } : Watch dateParse).last = r := by
    unfold last
    rw [hnone]
    rfl
  constructor
  · exact h.committed
  · exact h.bounded
  · exact le_of_eq (congrArg Revision.value hlast).symm
  · rw [hlast]
    exact hr
  · exact h.sorted
  · intro earlier event later hsplit
    rw [show watch.emitted = earlier ++ event :: later from hsplit] at hnone
    simp at hnone
  · rw [hlast]
    show changesOf watch.emitted = _
    rw [hnone]
    exact CommitLog.window_self.symm
  · intro t ht
    obtain rfl := Option.some.inj ht
    exact hlast.symm

/-- An event is emitted: what lies between the last cursor and its revision is the entry it
    carries. -/
theorem Ok.emit (h : watch.Ok orgId) {event : WatchEvent} {stream : OpenStream}
    (habove : watch.last.value ≤ event.revision.value)
    (hbelow : event.revision.value ≤ watch.db.current.value)
    (hcarries : watch.between orgId watch.last event.revision = changesOf [event])
    (hstream : StreamOk { watch with emitted := watch.emitted ++ [event] } orgId stream) :
    Ok orgId { watch with stream := some stream, emitted := watch.emitted ++ [event] } := by
  have hordered : CommitLog.Ordered TupleChange.position (watch.db.changelogOf orgId) :=
    h.committed.ordered.filter _
  have hsofar : changesOf (watch.emitted ++ [event]) =
      watch.between orgId watch.first event.revision := by
    have happend := CommitLog.window_append hordered h.first_le habove
    unfold changesOf
    rw [List.filterMap_append]
    exact (congrArg₂ (· ++ ·) h.sofar hcarries.symm).trans happend
  have hlast : ({ watch with
      stream := some stream
      emitted := watch.emitted ++ [event] } : Watch dateParse).last = event.revision :=
    last_emit watch event
  have hle : ∀ e ∈ watch.emitted, e.revision.value ≤ watch.last.value := by
    intro e he
    unfold last
    cases hemitted : watch.emitted.getLast? with
    | none =>
      rw [List.getLast?_eq_none_iff.mp hemitted] at he
      cases he
    | some final =>
      obtain ⟨front, hfront⟩ := List.getLast?_eq_some_iff.mp hemitted
      have hsorted := h.sorted
      rw [hfront] at he hsorted
      rcases List.mem_append.mp he with he | he
      · exact (List.pairwise_append.mp hsorted).2.2 e he final (List.mem_singleton.mpr rfl)
      · rw [List.mem_singleton.mp he]
        exact le_refl _
  constructor
  · exact h.committed
  · intro e he
    rcases List.mem_append.mp he with he | he
    · exact h.bounded e he
    · rw [List.mem_singleton.mp he]
      exact hbelow
  · rw [hlast]
    exact le_trans h.first_le habove
  · rw [hlast]
    exact hbelow
  · refine List.pairwise_append.mpr ⟨h.sorted, List.pairwise_singleton _ _, ?_⟩
    intro a ha b hb
    rw [List.mem_singleton.mp hb]
    exact le_trans (hle a ha) habove
  · intro earlier e later hsplit
    -- The event is the new one, or was emitted before.
    rcases List.eq_nil_or_concat later with rfl | ⟨front, final, rfl⟩
    · obtain ⟨rfl, hevent⟩ := List.append_inj' hsplit rfl
      obtain rfl : event = e := by simpa using hevent
      exact hsofar
    · rw [List.concat_eq_append, ← List.cons_append, ← List.append_assoc] at hsplit
      obtain ⟨hbefore, -⟩ := List.append_inj' hsplit rfl
      exact h.emitted earlier e front hbefore
  · rw [hlast]
    exact hsofar
  · intro t ht
    obtain rfl := Option.some.inj ht
    exact hstream

/-- A write changes nothing of what was emitted, and nothing that a stream knows. -/
theorem Ok.write (h : watch.Ok orgId) (operation : AdminOperation) (skipped : Nat) :
    Ok orgId { watch with
      db := operation.run ⟨watch.db.current.value + 1 + skipped⟩ watch.db } := by
  have hnext : watch.db.current.value < watch.db.current.value + 1 + skipped := by omega
  obtain ⟨hcommitted, hcurrent, entries, hchangelog, habove⟩ :=
    h.committed.write operation (r := ⟨watch.db.current.value + 1 + skipped⟩) hnext
  generalize hdb : operation.run ⟨watch.db.current.value + 1 + skipped⟩ watch.db = db at *
  -- A window that ends where the log ended is as before.
  have hbetween : ∀ low high : Revision, high.value ≤ watch.db.current.value →
      ({ watch with db := db } : Watch dateParse).between orgId low high =
        watch.between orgId low high := by
    intro low high hhigh
    unfold between Database.changelogOf
    dsimp only
    rw [hchangelog, List.filter_append]
    apply CommitLog.window_append_later
    intro e he
    have hlt := habove e (List.mem_of_mem_filter he)
    unfold TupleChange.position
    omega
  constructor
  · exact hcommitted
  · intro event hevent
    exact le_trans (h.bounded event hevent) hcurrent
  · exact h.first_le
  · exact le_trans h.last_le hcurrent
  · exact h.sorted
  · intro earlier event later hsplit
    have hevent : event ∈ watch.emitted := by
      rw [show watch.emitted = earlier ++ event :: later from hsplit]
      exact List.mem_append_right _ (List.mem_cons_self ..)
    rw [hbetween _ _ (h.bounded event hevent)]
    exact h.emitted earlier event later hsplit
  · rw [hbetween _ _ (show ({ watch with db := db } : Watch dateParse).last.value ≤ _
      from h.last_le)]
    exact h.sofar
  · intro stream hstream
    have hok := h.stream stream hstream
    unfold StreamOk at hok ⊢
    cases hstage : stream.stage with
    | opening =>
      rw [hstage] at hok
      exact hok
    | polling =>
      rw [hstage] at hok
      exact hok
    | reading =>
      rw [hstage] at hok
      exact hok
    | paging high =>
      rw [hstage] at hok
      exact ⟨hok.1, le_trans hok.2 hcurrent⟩
    | emitting high page full =>
      rw [hstage] at hok
      obtain ⟨hcursor, top, htop, hle, hpage, hhigh⟩ := hok
      refine ⟨hcursor, top, le_trans htop hcurrent, hle, ?_, hhigh⟩
      rw [hbetween _ _ htop]
      exact hpage
    | beating high =>
      rw [hstage] at hok
      obtain ⟨hcursor, hhigh, hnone⟩ := hok
      refine ⟨hcursor, le_trans hhigh hcurrent, ?_⟩
      rw [hbetween _ _ hhigh]
      exact hnone

variable (collation : String → String → Bool) (options : TupleChangeStreamOptions)

theorem Ok.next (h : watch.Ok orgId) {stream : OpenStream} (hopen : watch.stream = some stream)
    (now : Int) : (watch.next collation options orgId stream now).Ok orgId := by
  have hok := h.stream stream hopen
  have hordered : CommitLog.Ordered TupleChange.position (watch.db.changelogOf orgId) :=
    h.committed.ordered.filter _
  have hmove : ∀ t : OpenStream, watch.StreamOk orgId t →
      Ok orgId { watch with stream := some t } := by
    intro t ht
    apply h.move
    intro t' ht'
    obtain rfl := Option.some.inj ht'
    exact ht
  obtain ⟨deadline, cursor, beatAt, stage⟩ := stream
  unfold Watch.next
  cases stage with
  | opening =>
    -- Nothing was emitted yet, so the cursor that is read here is the first one.
    exact h.start hok (le_refl _)
  | polling =>
    dsimp only
    split_ifs
    · exact hmove _ hok
    · exact h.move fun t ht => by cases ht
  | reading => exact hmove _ ⟨hok, le_refl _⟩
  | paging high =>
    obtain ⟨hcursor, hhigh⟩ := hok
    dsimp only at hcursor hhigh ⊢
    rw [h.committed.changesSince]
    have hle : cursor.value ≤ watch.db.current.value := by
      rw [hcursor]
      exact h.last_le
    obtain ⟨top, hlow, htop, hpage⟩ := CommitLog.take_window hordered hle options.pageSize
    by_cases hfull : ((CommitLog.window TupleChange.position cursor.value watch.db.current.value
        (watch.db.changelogOf orgId)).take options.pageSize).length = options.pageSize
    · refine hmove _ ⟨hcursor, ⟨top⟩, htop, hlow, hpage, ?_⟩
      intro hnotFull
      rw [hfull] at hnotFull
      simp at hnotFull
    · -- The page holds everything that was there, so everything up to the revision read before.
      refine hmove _ ⟨hcursor, watch.db.current, le_refl _, hle, ?_, fun _ => hhigh⟩
      rw [List.length_take] at hfull
      exact List.take_of_length_le (by omega)
  | emitting high page full =>
    obtain ⟨hcursor, top, htop, hle, hpage, hhigh⟩ := hok
    dsimp only at hcursor hpage hle
    subst hcursor
    cases page with
    | cons entry page =>
      obtain ⟨hfirst, hrest, hlow, hup⟩ := CommitLog.window_cons hordered hpage.symm
      apply h.emit
      · exact hlow.le
      · exact le_trans hup htop
      · exact hfirst
      · exact ⟨(last_emit watch (.change entry)).symm, top, htop, hup, hrest.symm, hhigh⟩
    | nil =>
      cases full with
      | true => exact hmove _ rfl
      | false =>
        refine hmove _ ⟨rfl, le_trans (hhigh rfl) htop, ?_⟩
        apply CommitLog.window_eq_nil
        intro e he hlow
        by_contra hnot
        have hin : e ∈ watch.between orgId watch.last top := by
          refine CommitLog.mem_window.mpr ⟨he, hlow, ?_⟩
          have htop' := hhigh rfl
          omega
        rw [← hpage] at hin
        cases hin
  | beating high =>
    obtain ⟨hcursor, hhigh, hnone⟩ := hok
    dsimp only at hcursor hnone
    subst hcursor
    dsimp only
    split_ifs with hdue hahead
    · have hle : watch.last.value ≤ high.value := by
        unfold Revision.isAtLeast at hahead
        simpa using hahead
      apply h.emit
      · exact hle
      · exact hhigh
      · exact hnone
      · exact (last_emit watch (.heartbeat high)).symm
    · apply h.emit
      · exact le_refl _
      · exact h.last_le
      · exact CommitLog.window_self
      · exact (last_emit watch (.heartbeat watch.last)).symm
    · exact hmove _ rfl

/-- **The step lemma.** -/
theorem Ok.step (h : watch.Ok orgId) (s : WatchStep) :
    (watch.step collation options orgId s).Ok orgId := by
  cases s with
  | write operation skipped => exact h.write operation skipped
  | connect since now =>
    unfold Watch.step
    by_cases hcan : (watch.stream.isNone && watch.mayConnect since) = true
    · dsimp only
      rw [if_pos hcan]
      obtain ⟨-, hmay⟩ := Bool.and_eq_true_iff.mp hcan
      unfold mayConnect at hmay
      cases hemitted : watch.emitted.getLast? with
      | some event =>
        -- It resumes from the last event.
        rw [hemitted] at hmay
        obtain rfl : since = some event.revision := by simpa using hmay
        have hlast : watch.last = event.revision := by
          unfold last
          rw [hemitted]
          rfl
        have hne : ¬ watch.emitted.isEmpty = true := by
          intro hempty
          rw [List.isEmpty_iff.mp hempty] at hemitted
          cases hemitted
        dsimp only
        rw [if_neg hne]
        refine h.move fun t ht => ?_
        obtain rfl := Option.some.inj ht
        exact hlast.symm
      | none =>
        have hnone := List.getLast?_eq_none_iff.mp hemitted
        rw [hemitted] at hmay
        cases since with
        | none =>
          refine h.move fun t ht => ?_
          obtain rfl := Option.some.inj ht
          exact hnone
        | some r =>
          have hr : r.value ≤ watch.db.current.value := by simpa using hmay
          dsimp only
          rw [if_pos (List.isEmpty_iff.mpr hnone)]
          exact h.start hnone hr
    · dsimp only
      rw [if_neg hcan]
      exact h
  | disconnect => exact h.move fun t ht => by cases ht
  | close =>
    constructor
    · exact h.committed
    · exact h.bounded
    · exact h.first_le
    · exact h.last_le
    · exact h.sorted
    · exact h.emitted
    · exact h.sofar
    · exact h.stream
  | next now =>
    unfold Watch.step
    cases hopen : watch.stream with
    | none => exact h
    | some stream => exact h.next collation options hopen now

/-- **The run lemma.** -/
theorem Ok.run (h : watch.Ok orgId) (steps : List WatchStep) :
    (watch.run collation options orgId steps).Ok orgId := by
  induction steps generalizing watch with
  | nil => exact h
  | cons s steps ih => exact ih (h.step collation options s)

end Watch

/-- **The watch stream has no gap and no duplicate.**  In every run, up to each event the client
    got, the entries it got are exactly those of its organization above the cursor it started from
    first and up to the revision of the event; they come in the order of their revisions, each once;
    and the revisions of the events never decrease.  The cursor of an open stream is the revision of
    the last event, or the one it started from. -/
theorem watch_exact (collation : String → String → Bool) (options : TupleChangeStreamOptions)
    (orgId : OrgId) (steps : List WatchStep) :
    let watch := (Watch.initial : Watch dateParse).run collation options orgId steps
    (∀ earlier event later, watch.emitted = earlier ++ event :: later →
        changesOf (earlier ++ [event]) = watch.between orgId watch.first event.revision) ∧
      changesOf watch.emitted = watch.between orgId watch.first watch.last ∧
      (changesOf watch.emitted).Pairwise (fun a b => a.revision.value < b.revision.value) ∧
      watch.emitted.Pairwise (fun a b => a.revision.value ≤ b.revision.value) ∧
      watch.stream.all (fun stream => match stream.stage with
        | .opening => watch.emitted.isEmpty
        | _ => stream.cursor = watch.last) := by
  intro watch
  have h : watch.Ok orgId := Watch.Ok.initial.run collation options steps
  refine ⟨h.emitted, h.sofar, ?_, h.sorted, ?_⟩
  · rw [h.sofar]
    exact (h.committed.ordered.filter _).filter _
  · rw [Option.all_eq_true]
    intro stream hstream
    have hok := h.stream stream hstream
    unfold Watch.StreamOk at hok
    cases hstage : stream.stage with
    | opening =>
      rw [hstage] at hok
      exact List.isEmpty_iff.mpr hok
    | polling =>
      rw [hstage] at hok
      exact decide_eq_true hok
    | reading =>
      rw [hstage] at hok
      exact decide_eq_true hok
    | paging high =>
      rw [hstage] at hok
      exact decide_eq_true hok.1
    | emitting high page full =>
      rw [hstage] at hok
      exact decide_eq_true hok.1
    | beating high =>
      rw [hstage] at hok
      exact decide_eq_true hok.1

/-- A change, a heartbeat up to it, and after a resume the change of a later revision. -/
example :
    let ann : RelationTupleCommand :=
      ⟨⟨"acme", by decide⟩, ⟨"doc", "report"⟩, "viewer", .subject ⟨"user", "ann"⟩⟩
    let watch := (Watch.initial : Watch fun _ => none).run (fun a b => a ≤ b) ⟨10, 0, 60⟩ ann.orgId
      [.write (.writeTuple ann 0) 0, .connect (some ⟨0⟩) 0, .next 0, .next 0, .next 0, .next 0,
        .next 0, .next 0, .disconnect, .write (.revokeTuple ann 0) 3, .connect (some ⟨1⟩) 1,
        .next 1, .next 1, .next 1, .next 1]
    watch.emitted.map (·.revision.value) = [1, 1, 5] := by decide

end AccessCore
