/-
  Writer transactions and the revisions they commit (`db/drizzle-revisions.repository.ts`,
  `authz/application/relation-tuple-writer.ts`).

  A writer takes the revision lock, inserts its revision row, changes the tuples, appends to the
  changelog and commits; it may be rolled back at every step.  The number of its row comes from a
  sequence, which is not rolled back, so revisions may be skipped.  The lock is held to the end of
  the transaction, so revisions commit in the order of their numbers: that is the invariant
  (`RevisionStore.Ok`), and both results follow from it.

  A snapshot at revision `r` holds the writes up to `r` and no others, whatever commits later
  (`commit_ordered`).  And the changelog up to `r`, replayed, gives the tuples of that snapshot
  (`changelog_replays`).
-/
import AccessCore.Lib.CommitLog
import AccessCore.Authz.Writers

namespace AccessCore

variable {dateParse : String → Option Int}

/-! ## Transactions -/

/-- A call of the writer: `write` for an upsert, `revoke` for a deletion. -/
structure TupleWrite where
  op : TupleChangeOp
  command : RelationTupleCommand
  recordedAt : Int

def TupleWrite.operation (write : TupleWrite) : AdminOperation :=
  match write.op with
  | .upsert => .writeTuple write.command write.recordedAt
  | .delete => .revokeTuple write.command write.recordedAt

/-- How far a transaction has come: it holds the lock, has its revision row, has changed the
    tuples (with or without something to log), has logged the change. -/
inductive Stage where
  | locked
  | allocated (revision : Revision)
  | changed (revision : Revision) (toLog : Bool)
  | logged (revision : Revision)

/-- The transaction that holds the lock, and the tables as it sees them. -/
structure Transaction (dateParse : String → Option Int) where
  write : TupleWrite
  stage : Stage
  working : Database dateParse

/-- The committed tables, the sequence of the revision numbers, and the lock.  The history lists the
    committed writes. -/
structure RevisionStore (dateParse : String → Option Int) where
  committed : Database dateParse
  sequence : Nat
  holder : Option (Transaction dateParse)
  history : List (TupleWrite × Revision)

/-- A writer gets the lock, the holder runs its next statement, the holder is rolled back. -/
inductive StoreEvent where
  | lock (write : TupleWrite)
  | next
  | rollback

namespace RevisionStore

def empty : RevisionStore dateParse := ⟨Database.empty, 0, none, []⟩

/-- The next statement of the holder. -/
def next (store : RevisionStore dateParse) (t : Transaction dateParse) : RevisionStore dateParse :=
  let command := t.write.command
  match t.stage with
  | .locked =>
    let allocated : Revision := ⟨store.sequence + 1⟩
    { store with
      sequence := store.sequence + 1
      holder := some { t with
        stage := .allocated allocated
        working := t.working.allocate allocated } }
  | .allocated allocated =>
    match t.write.op with
    | .upsert =>
      match RelationTuple.write command.orgId command.object command.relation command.subject
          allocated t.write.recordedAt with
      | .error _ => { store with holder := none }
      | .ok tuple => { store with
          holder := some { t with
            stage := .changed allocated true
            working := t.working.upsertTuple tuple } }
    | .delete =>
      let removed := t.working.deleteTuple command.orgId command.object command.relation
        command.subject
      { store with
        holder := some { t with
          stage := .changed allocated (0 < removed.2)
          working := removed.1 } }
  | .changed allocated toLog => { store with
      holder := some { t with
        stage := .logged allocated
        working :=
          if toLog then
            t.working.appendChange
              (RelationTupleWriter.change command t.write.op allocated t.write.recordedAt)
          else t.working } }
  | .logged allocated => { store with
      committed := t.working
      holder := none
      history := store.history ++ [(t.write, allocated)] }

/-- One event; one that cannot happen changes nothing. -/
def step (store : RevisionStore dateParse) : StoreEvent → RevisionStore dateParse
  | .lock write =>
    match store.holder with
    | some _ => store
    | none => { store with holder := some ⟨write, .locked, store.committed⟩ }
  | .next =>
    match store.holder with
    | some t => store.next t
    | none => store
  | .rollback => { store with holder := none }

def run (store : RevisionStore dateParse) (events : List StoreEvent) : RevisionStore dateParse :=
  events.foldl step store

/-! ## The invariant -/

/-- The writes of a history as operations. -/
def operations (history : List (TupleWrite × Revision)) : List (AdminOperation × Revision) :=
  history.map fun c => (c.1.operation, c.2)

/-- What the holder has done to the committed tables so far. -/
def Working (committed : Database dateParse) (sequence : Nat) (t : Transaction dateParse) : Prop :=
  let command := t.write.command
  match t.stage with
  | .locked => t.working = committed
  | .allocated r => r.value = sequence ∧ t.working = committed.allocate r
  | .changed r toLog => r.value = sequence ∧
      match t.write.op with
      | .upsert => toLog = true ∧ ∃ tuple, RelationTuple.write command.orgId command.object
          command.relation command.subject r t.write.recordedAt = .ok tuple ∧
            t.working = (committed.allocate r).upsertTuple tuple
      | .delete =>
        let removed := (committed.allocate r).deleteTuple command.orgId command.object
          command.relation command.subject
        toLog = decide (0 < removed.2) ∧ t.working = removed.1
  | .logged r => r.value = sequence ∧ t.working = t.write.operation.run r committed ∧
      t.working.revisions = committed.revisions ++ [r]

/-- Once the holder was handed a number, every committed revision is below it. -/
def AheadOf (history : List (TupleWrite × Revision)) (sequence : Nat) : Stage → Prop
  | .locked => True
  | _ => 0 < sequence ∧ ∀ c ∈ history, c.2.value < sequence

structure Ok (store : RevisionStore dateParse) : Prop where
  replays : store.committed = AdminOperation.runAll (operations store.history) Database.empty
  revisions : store.committed.revisions = store.history.map (·.2)
  ordered : CommitLog.Ordered (fun c => c.2.value) store.history
  handedOut : ∀ c ∈ store.history, c.2.value ≤ store.sequence
  positive : ∀ c ∈ store.history, 0 < c.2.value
  working : ∀ t, store.holder = some t → Working store.committed store.sequence t
  ahead : ∀ t, store.holder = some t → AheadOf store.history store.sequence t.stage

theorem Ok.empty : Ok (RevisionStore.empty : RevisionStore dateParse) where
  replays := rfl
  revisions := rfl
  ordered := .nil
  handedOut _ hc := absurd hc List.not_mem_nil
  positive _ hc := absurd hc List.not_mem_nil
  working _ ht := by cases ht
  ahead _ ht := by cases ht

/-- Giving up the lock changes nothing that is committed. -/
theorem Ok.released {store : RevisionStore dateParse} (h : store.Ok) :
    Ok { store with holder := none } where
  replays := h.replays
  revisions := h.revisions
  ordered := h.ordered
  handedOut := h.handedOut
  positive := h.positive
  working _ ht := by cases ht
  ahead _ ht := by cases ht

/-- The statements of a `write`, one after the other, are the writer's transaction. -/
theorem working_upsert {committed : Database dateParse} {write : TupleWrite} {r : Revision}
    {tuple : RelationTuple} (hop : write.op = .upsert)
    (htuple : RelationTuple.write write.command.orgId write.command.object write.command.relation
      write.command.subject r write.recordedAt = .ok tuple) :
    ((committed.allocate r).upsertTuple tuple).appendChange
        (RelationTupleWriter.change write.command write.op r write.recordedAt) =
      write.operation.run r committed := by
  unfold TupleWrite.operation
  simp only [hop, AdminOperation.run, RelationTupleWriter.write, htuple]
  rfl

/-- The same of a `revoke`. -/
theorem working_delete {committed : Database dateParse} {write : TupleWrite} {r : Revision}
    (hop : write.op = .delete) :
    (if 0 < ((committed.allocate r).deleteTuple write.command.orgId write.command.object
          write.command.relation write.command.subject).2 then
        ((committed.allocate r).deleteTuple write.command.orgId write.command.object
          write.command.relation write.command.subject).1.appendChange
            (RelationTupleWriter.change write.command write.op r write.recordedAt)
      else ((committed.allocate r).deleteTuple write.command.orgId write.command.object
        write.command.relation write.command.subject).1) =
      write.operation.run r committed := by
  unfold TupleWrite.operation
  simp only [hop, AdminOperation.run, RelationTupleWriter.revoke]
  split_ifs <;> rfl

/-- A write leaves one more revision row. -/
theorem revisions_run {committed : Database dateParse} {write : TupleWrite} {r : Revision} :
    write.op = .delete ∨ (∃ tuple, RelationTuple.write write.command.orgId write.command.object
        write.command.relation write.command.subject r write.recordedAt = .ok tuple) →
    (write.operation.run r committed).revisions = committed.revisions ++ [r] := by
  rintro (hop | ⟨tuple, htuple⟩)
  · rw [← working_delete hop]
    split_ifs <;> rfl
  · cases hop : write.op with
    | delete =>
      rw [← working_delete hop]
      split_ifs <;> rfl
    | upsert =>
      rw [← working_upsert hop htuple]
      rfl

theorem Ok.next {store : RevisionStore dateParse} (h : store.Ok) {t : Transaction dateParse}
    (ht : store.holder = some t) : (store.next t).Ok := by
  have hworking := h.working t ht
  have hahead := h.ahead t ht
  -- A statement that commits nothing.
  have hgoes : ∀ sequence stage working, store.sequence ≤ sequence →
      Working store.committed sequence { t with stage := stage, working := working } →
      AheadOf store.history sequence stage →
      Ok { store with
        sequence := sequence
        holder := some { t with stage := stage, working := working } } := by
    intro sequence stage working hsequence hworking' hahead'
    refine ⟨h.replays, h.revisions, h.ordered, ?_, h.positive, ?_, ?_⟩
    · intro c hc
      exact le_trans (h.handedOut c hc) hsequence
    · intro t' ht'
      obtain rfl := Option.some.inj ht'
      exact hworking'
    · intro t' ht'
      obtain rfl := Option.some.inj ht'
      exact hahead'
  obtain ⟨write, stage, working⟩ := t
  unfold RevisionStore.next
  dsimp only
  cases stage with
  | locked =>
    obtain rfl : working = store.committed := hworking
    refine hgoes _ (.allocated ⟨store.sequence + 1⟩) _ (Nat.le_succ _) ⟨rfl, rfl⟩ ?_
    constructor
    · omega
    · intro c hc
      exact Nat.lt_succ_of_le (h.handedOut c hc)
  | allocated r =>
    obtain ⟨hr, rfl⟩ := hworking
    dsimp only
    cases hop : write.op with
    | upsert =>
      dsimp only
      split
      · exact h.released
      · next tuple htuple =>
        refine hgoes _ (.changed r true) _ (le_refl _) ?_ hahead
        unfold Working
        dsimp only
        rw [hop]
        exact ⟨hr, rfl, tuple, htuple, rfl⟩
    | delete =>
      refine hgoes _ (.changed r _) _ (le_refl _) ?_ hahead
      unfold Working
      dsimp only
      rw [hop]
      exact ⟨hr, rfl, rfl⟩
  | changed r toLog =>
    obtain ⟨hr, hchange⟩ := hworking
    refine hgoes _ (.logged r) _ (le_refl _) ?_ hahead
    have hrun : (if toLog = true then working.appendChange
          (RelationTupleWriter.change write.command write.op r write.recordedAt) else working) =
        write.operation.run r store.committed ∧
        (write.op = .delete ∨ ∃ tuple, RelationTuple.write write.command.orgId write.command.object
          write.command.relation write.command.subject r write.recordedAt = .ok tuple) := by
      cases hop : write.op with
      | upsert =>
        rw [hop] at hchange
        obtain ⟨rfl, tuple, htuple, rfl⟩ := hchange
        refine ⟨?_, Or.inr ⟨tuple, htuple⟩⟩
        rw [if_pos rfl, ← hop]
        exact working_upsert hop htuple
      | delete =>
        rw [hop] at hchange
        dsimp only at hchange
        obtain ⟨htoLog, hchanged⟩ := hchange
        subst htoLog
        subst hchanged
        refine ⟨?_, Or.inl rfl⟩
        simp only [decide_eq_true_eq]
        rw [← hop]
        exact working_delete hop
    refine ⟨hr, hrun.1, ?_⟩
    show (if toLog = true then _ else _ : Database dateParse).revisions = _
    rw [hrun.1]
    exact revisions_run hrun.2
  | logged r =>
    obtain ⟨hr, hrun, hrevisions⟩ := hworking
    dsimp only at hr hrun hrevisions
    have hlast : ∀ c ∈ store.history, c.2.value < r.value := by
      intro c hc
      rw [hr]
      exact hahead.2 c hc
    refine ⟨?_, ?_, h.ordered.append_singleton hlast, ?_, ?_, ?_, ?_⟩
    · show working = _
      rw [hrun, h.replays]
      unfold operations AdminOperation.runAll
      rw [List.map_append, List.foldl_append]
      rfl
    · show working.revisions = _
      rw [hrevisions, h.revisions, List.map_append]
      rfl
    · intro c hc
      rcases List.mem_append.mp hc with hc | hc
      · exact h.handedOut c hc
      · rw [List.mem_singleton.mp hc]
        exact le_of_eq hr
    · intro c hc
      rcases List.mem_append.mp hc with hc | hc
      · exact h.positive c hc
      · rw [List.mem_singleton.mp hc]
        show 0 < r.value
        rw [hr]
        exact hahead.1
    · intro t' ht'
      cases ht'
    · intro t' ht'
      cases ht'

/-- **The step lemma.** -/
theorem Ok.step {store : RevisionStore dateParse} (h : store.Ok) (event : StoreEvent) :
    (store.step event).Ok := by
  cases event with
  | lock write =>
    unfold RevisionStore.step
    cases hholder : store.holder with
    | some t =>
      dsimp only
      exact h
    | none =>
      dsimp only
      refine ⟨h.replays, h.revisions, h.ordered, h.handedOut, h.positive, ?_, ?_⟩
      · intro t ht
        obtain rfl := Option.some.inj ht
        rfl
      · intro t ht
        obtain rfl := Option.some.inj ht
        exact trivial
  | next =>
    unfold RevisionStore.step
    cases hholder : store.holder with
    | some t => exact h.next hholder
    | none => exact h
  | rollback => exact h.released

/-- **The run lemma.** -/
theorem Ok.run {store : RevisionStore dateParse} (h : store.Ok) (events : List StoreEvent) :
    (store.run events).Ok := by
  induction events generalizing store with
  | nil => exact h
  | cons event events ih => exact ih (h.step event)

/-! ## What later events leave alone -/

theorem history_step (store : RevisionStore dateParse) (event : StoreEvent) :
    ∃ more, (store.step event).history = store.history ++ more := by
  have hsame : ∃ more, store.history = store.history ++ more := ⟨[], (List.append_nil _).symm⟩
  cases event with
  | lock write =>
    unfold step
    cases store.holder <;> exact hsame
  | next =>
    unfold step
    cases store.holder with
    | none => exact hsame
    | some t =>
      unfold RevisionStore.next
      dsimp only
      cases t.stage with
      | locked => exact hsame
      | allocated r =>
        dsimp only
        cases t.write.op with
        | upsert =>
          dsimp only
          split <;> exact hsame
        | delete => exact hsame
      | changed r toLog => exact hsame
      | logged r => exact ⟨[(t.write, r)], rfl⟩
  | rollback => exact hsame

theorem history_run (store : RevisionStore dateParse) (events : List StoreEvent) :
    ∃ more, (store.run events).history = store.history ++ more := by
  induction events generalizing store with
  | nil => exact ⟨[], (List.append_nil _).symm⟩
  | cons event events ih =>
    obtain ⟨first, hfirst⟩ := history_step store event
    obtain ⟨more, hmore⟩ := ih (store.step event)
    refine ⟨first ++ more, ?_⟩
    show ((store.step event).run events).history = _
    rw [hmore, hfirst, List.append_assoc]

/-! ## Snapshots -/

theorem maxRevision_lt {revisions : List Revision} {n : Nat}
    (h : ∀ r ∈ revisions, r.value < n) (hpos : 0 < n) :
    (Database.maxRevision revisions).value < n := by
  unfold Database.maxRevision
  induction revisions with
  | nil => exact hpos
  | cons r revisions ih =>
    have hr := h r (List.mem_cons_self ..)
    have hrest := ih fun q hq => h q (List.mem_cons_of_mem _ hq)
    exact max_lt hr hrest

/-- What is committed is within the current revision, and what commits later is above it. -/
theorem Ok.current {store later : RevisionStore dateParse} (h : store.Ok) (hlater : later.Ok)
    {more : List (TupleWrite × Revision)} (hmore : later.history = store.history ++ more) :
    (∀ c ∈ store.history, c.2.value ≤ store.committed.current.value) ∧
      ∀ c ∈ more, store.committed.current.value < c.2.value := by
  constructor
  · intro c hc
    apply Database.le_maxRevision
    rw [h.revisions]
    exact List.mem_map_of_mem hc
  · intro c hc
    have hordered := hlater.ordered
    have hpositive := hlater.positive
    rw [hmore] at hordered hpositive
    refine maxRevision_lt ?_ (hpositive c (List.mem_append_right _ hc))
    rw [h.revisions]
    intro r hr
    obtain ⟨d, hd, rfl⟩ := List.mem_map.mp hr
    exact (List.pairwise_append.mp hordered).2.2 d hd c hc

/-- A reader at the current revision of a store sees its writes in every later history. -/
theorem Ok.upTo_current {store later : RevisionStore dateParse} (h : store.Ok) (hlater : later.Ok)
    {more : List (TupleWrite × Revision)} (hmore : later.history = store.history ++ more) :
    CommitLog.upTo (fun c => c.2.value) store.committed.current.value later.history =
      store.history := by
  obtain ⟨hseen, hunseen⟩ := h.current hlater hmore
  rw [hmore]
  exact CommitLog.upTo_append hseen hunseen

end RevisionStore

/-- A check that asks for more than the snapshot holds is refused before it is evaluated. -/
theorem evaluated_atLeast {db : Database dateParse} {token : ConsistencyToken}
    (h : db.current.value < token.revision.value) (principal : Principal) (action : Action)
    (resource : EntityRef) (ip : String) (now : Int) :
    (db.evaluated principal action resource ⟨ip, .atLeast token⟩ now).decision =
      if principal.orgId.isNone then noOrgContext else consistencyUnavailable := by
  have hbehind : (db.current.isAtLeast token.revision) = false := by
    unfold Revision.isAtLeast
    exact decide_eq_false (by omega)
  unfold Database.evaluated evaluateWithin prepare
  cases principal.orgId with
  | none => rfl
  | some orgId =>
    have hrequired : (ConsistencyRequirement.atLeast token).requiredRevision.any
        (fun r => !(EvaluationContext.opened db).revisionUsed.isAtLeast r) = true := by
      show (!db.current.isAtLeast token.revision) = true
      rw [hbehind]
      rfl
    dsimp only
    rw [if_pos hrequired]
    rfl

/-- **Revisions are commit-ordered.**  Take the snapshot of a check at any point of a run, and the
    run to any later point.  The snapshot is what the committed writes up to its current revision
    make of empty tables; no write up to that revision commits later; and a check that asks for the
    token of a write is made on a snapshot that holds the write, or is refused. -/
theorem commit_ordered (before after : List StoreEvent) :
    let store := (RevisionStore.empty : RevisionStore dateParse).run before
    let later := store.run after
    let snapshot := store.committed
    snapshot = AdminOperation.runAll (RevisionStore.operations
        (CommitLog.upTo (fun c => c.2.value) snapshot.current.value later.history))
        Database.empty ∧
      (∀ c ∈ later.history, c.2.value ≤ snapshot.current.value → c ∈ store.history) ∧
      ∀ c ∈ later.history, ∀ principal action resource ip now,
        c ∈ store.history ∨
          (snapshot.evaluated principal action resource ⟨ip, .atLeast ⟨c.2⟩⟩ now).decision =
            if principal.orgId.isNone then noOrgContext else consistencyUnavailable := by
  intro store later snapshot
  have hstore : store.Ok := RevisionStore.Ok.empty.run before
  have hlater : later.Ok := hstore.run after
  obtain ⟨more, hmore⟩ := store.history_run after
  obtain ⟨-, hunseen⟩ := hstore.current hlater hmore
  have hwhere : ∀ c ∈ later.history, c ∈ store.history ∨ snapshot.current.value < c.2.value := by
    intro c hc
    rw [hmore] at hc
    rcases List.mem_append.mp hc with hc | hc
    · exact Or.inl hc
    · exact Or.inr (hunseen c hc)
  refine ⟨?_, ?_, ?_⟩
  · rw [hstore.upTo_current hlater hmore]
    exact hstore.replays
  · intro c hc hle
    rcases hwhere c hc with hthere | hlt
    · exact hthere
    · omega
  · intro c hc principal action resource ip now
    rcases hwhere c hc with hthere | hlt
    · exact Or.inl hthere
    · exact Or.inr (evaluated_atLeast hlt principal action resource ip now)

/-- A write and the steps it commits in. -/
def shareReport : TupleWrite where
  op := .upsert
  command := ⟨⟨"acme", colon_notMem_acme⟩, ⟨"doc", "report"⟩, "viewer", .subject ⟨"user", "ann"⟩⟩
  recordedAt := 0

/-- A principal without an organization is refused for that, also when the store is behind the
    token. -/
theorem refused_without_org :
    let store := (RevisionStore.empty : RevisionStore fun _ => none).run []
    let later := store.run [.lock shareReport, .next, .next, .next, .next]
    ∃ c ∈ later.history, c ∉ store.history ∧
      (store.committed.evaluated ⟨⟨"user", "ann"⟩, none, 1, none⟩
        ⟨"doc", "view", by decide, by decide⟩
        ⟨"doc", "report"⟩ ⟨"", .atLeast ⟨c.2⟩⟩ 0).decision ≠ consistencyUnavailable := by
  refine ⟨(shareReport, ⟨1⟩), List.mem_singleton.mpr rfl, List.not_mem_nil, ?_⟩
  decide

/-! ## The changelog -/

/-- The key of a changed tuple. -/
def changeKey (change : TupleChange) : OrgId × String × String × String × String :=
  (change.orgId, change.object.type, change.object.id, change.relation, change.subject)

/-- Whether a change leaves its tuple in the table. -/
def TupleChange.adds (change : TupleChange) : Bool := change.op = .upsert

namespace Database

/-- The keys of the tuples. -/
def tupleKeys (db : Database dateParse) : Set (OrgId × String × String × String × String) :=
  {k | k ∈ db.tuples.rows.map tupleRowKey}

/-- The keys of the tuples of an organization. -/
def tupleKeysOf (db : Database dateParse) (orgId : OrgId) :
    Set (OrgId × String × String × String × String) :=
  {k | k ∈ db.tupleKeys ∧ k.1 = orgId}

/-- The changelog of an organization up to a revision, replayed. -/
def replayed (db : Database dateParse) (orgId : OrgId) (r : Revision) :
    Set (OrgId × String × String × String × String) :=
  CommitLog.replay changeKey TupleChange.adds
    (CommitLog.upTo (fun c => c.revision.value) r.value
      (db.changelog.filter fun c => c.orgId = orgId))

theorem matchesKey_iff {command : RelationTupleCommand} {tuple : RelationTuple} {op : TupleChangeOp}
    {r : Revision} {recordedAt : Int} :
    matchesKey command.orgId command.object command.relation command.subject tuple = true ↔
      tupleRowKey tuple = changeKey (RelationTupleWriter.change command op r recordedAt) := by
  have hobject : tuple.object = command.object ↔
      tuple.object.type = command.object.type ∧ tuple.object.id = command.object.id := by
    cases tuple.object
    cases command.object
    exact EntityRef.mk.injEq .. ▸ Iff.rfl
  unfold matchesKey tupleRowKey changeKey RelationTupleWriter.change
  simp only [Bool.and_eq_true, decide_eq_true_eq, Prod.mk.injEq, hobject, and_assoc]

/-- The keys that a deletion leaves. -/
theorem tupleKeys_deleteTuple (db : Database dateParse) (command : RelationTupleCommand)
    (op : TupleChangeOp) (r : Revision) (recordedAt : Int) :
    (db.deleteTuple command.orgId command.object command.relation command.subject).1.tupleKeys =
      db.tupleKeys \ {changeKey (RelationTupleWriter.change command op r recordedAt)} := by
  ext k
  constructor
  · intro hk
    obtain ⟨tuple, htuple, rfl⟩ := List.mem_map.mp hk
    obtain ⟨hthere, hkept⟩ := List.mem_filter.mp htuple
    refine ⟨List.mem_map_of_mem hthere, fun heq => ?_⟩
    rw [matchesKey_iff.mpr heq] at hkept
    cases hkept
  · rintro ⟨hk, hne⟩
    obtain ⟨tuple, hthere, rfl⟩ := List.mem_map.mp hk
    refine List.mem_map_of_mem (List.mem_filter.mpr ⟨hthere, ?_⟩)
    rw [Bool.not_eq_true', Bool.eq_false_iff]
    intro hmatches
    exact hne (matchesKey_iff.mp hmatches)

/-- A deletion that finds a row finds the row of its key. -/
theorem deleteTuple_pos (db : Database dateParse) (command : RelationTupleCommand)
    (op : TupleChangeOp) (r : Revision) (recordedAt : Int) :
    0 < (db.deleteTuple command.orgId command.object command.relation command.subject).2 ↔
      changeKey (RelationTupleWriter.change command op r recordedAt) ∈ db.tupleKeys := by
  unfold deleteTuple
  rw [List.length_pos_iff_exists_mem]
  constructor
  · rintro ⟨tuple, htuple⟩
    obtain ⟨hthere, hmatches⟩ := List.mem_filter.mp htuple
    rw [← matchesKey_iff.mp hmatches]
    exact List.mem_map_of_mem hthere
  · intro hk
    obtain ⟨tuple, hthere, hkey⟩ := List.mem_map.mp hk
    exact ⟨tuple, List.mem_filter.mpr ⟨hthere, matchesKey_iff.mpr hkey⟩⟩

end Database

/-- What a write does to the changelog and to the keys: nothing, or one entry and the change that
    it describes.  A `delete` entry is of a key that was there. -/
structure Logged (db db' : Database dateParse) (change : TupleChange) : Prop where
  changelog : db'.changelog = db.changelog ++ [change]
  keys : db'.tupleKeys = CommitLog.applyChange changeKey TupleChange.adds db.tupleKeys change
  present : change.op = .delete → changeKey change ∈ db.tupleKeys

theorem TupleWrite.run_cases (write : TupleWrite) (r : Revision) (db : Database dateParse) :
    (∃ op, Logged db (write.operation.run r db)
      (RelationTupleWriter.change write.command op r write.recordedAt)) ∨
      ((write.operation.run r db).changelog = db.changelog ∧
        (write.operation.run r db).tupleKeys = db.tupleKeys) := by
  cases hop : write.op with
  | upsert =>
    cases htuple : RelationTuple.write write.command.orgId write.command.object
        write.command.relation write.command.subject r write.recordedAt with
    | error e =>
      -- Refused: the transaction is rolled back.
      right
      have hsame : write.operation.run r db = db := by
        unfold TupleWrite.operation
        simp only [hop, AdminOperation.run, RelationTupleWriter.write, htuple]
        rfl
      rw [hsame]
      exact ⟨rfl, rfl⟩
    | ok tuple =>
      left
      refine ⟨.upsert, ?_⟩
      rw [← RevisionStore.working_upsert hop htuple, hop]
      have hkey : tupleRowKey tuple =
          changeKey (RelationTupleWriter.change write.command .upsert r write.recordedAt) := by
        obtain ⟨horg, hobject, hrelation, hsubject, -⟩ := RelationTuple.write_ok htuple
        unfold tupleRowKey changeKey RelationTupleWriter.change
        rw [horg, hobject, hrelation, hsubject]
      constructor
      · rfl
      · have hkeeps : Table.KeepsKey tupleRowKey fun old new : RelationTuple =>
            { old with revision := new.revision } := fun _ _ h => h
        have hrows : ((db.allocate r).upsertTuple tuple).tuples.rows.map tupleRowKey = _ :=
          Table.keys_upsertRows hkeeps db.tuples.rows
        ext k
        show k ∈ ((db.allocate r).upsertTuple tuple).tuples.rows.map tupleRowKey ↔
          k ∈ insert _ db.tupleKeys
        rw [hrows, ← hkey]
        split_ifs with hthere
        · constructor
          · intro hk
            exact Set.mem_insert_of_mem _ hk
          · rintro (rfl | hk)
            · exact hthere
            · exact hk
        · rw [List.mem_append, List.mem_singleton, or_comm]
          rfl
      · intro h
        cases h
  | delete =>
    have hkeys := Database.tupleKeys_deleteTuple (db.allocate r) write.command .delete r
      write.recordedAt
    have hfound := Database.deleteTuple_pos (db.allocate r) write.command .delete r
      write.recordedAt
    rw [← RevisionStore.working_delete hop]
    split_ifs with hremoved
    · left
      refine ⟨.delete, ?_⟩
      rw [hop]
      constructor
      · rfl
      · exact hkeys
      · intro _
        exact hfound.mp hremoved
    · -- No row was removed, so no key is gone.
      right
      refine ⟨rfl, ?_⟩
      rw [hkeys]
      exact Set.sdiff_singleton_eq_self fun hk => hremoved (hfound.mpr hk)

/-- The tables after the writes of a history. -/
def RevisionStore.tablesAfter (history : List (TupleWrite × Revision)) : Database dateParse :=
  AdminOperation.runAll (operations history) Database.empty

variable (dateParse) in
theorem tablesAfter_append_singleton (history : List (TupleWrite × Revision))
    (c : TupleWrite × Revision) :
    (RevisionStore.tablesAfter (history ++ [c]) : Database dateParse) =
      c.1.operation.run c.2 (RevisionStore.tablesAfter history) := by
  unfold RevisionStore.tablesAfter RevisionStore.operations AdminOperation.runAll
  rw [List.map_append, List.foldl_append]
  rfl

/-- What a history of commits leaves in the changelog: entries in the order of the commits, each of
    one of them, that give the keys of the table; a `delete` entry is of a key that the commits
    before it had left there. -/
structure LogOf (dateParse : String → Option Int) (history : List (TupleWrite × Revision)) :
    Prop where
  ordered : CommitLog.Ordered (fun c => c.revision.value)
    (RevisionStore.tablesAfter history : Database dateParse).changelog
  within : ∀ c ∈ (RevisionStore.tablesAfter history : Database dateParse).changelog,
    ∃ d ∈ history, d.2 = c.revision
  keys : (RevisionStore.tablesAfter history : Database dateParse).tupleKeys =
    CommitLog.replay changeKey TupleChange.adds
      (RevisionStore.tablesAfter history : Database dateParse).changelog
  removed : ∀ c ∈ (RevisionStore.tablesAfter history : Database dateParse).changelog,
    c.op = .delete → ∃ earlier write rest, history = earlier ++ (write, c.revision) :: rest ∧
      changeKey c ∈ (RevisionStore.tablesAfter earlier : Database dateParse).tupleKeys

theorem LogOf.of_ordered {history : List (TupleWrite × Revision)}
    (h : CommitLog.Ordered (fun c => c.2.value) history) : LogOf dateParse history := by
  induction history using List.reverseRecOn with
  | nil =>
    refine ⟨.nil, fun c hc => absurd hc List.not_mem_nil, ?_,
      fun c hc => absurd hc List.not_mem_nil⟩
    ext k
    constructor <;> intro hk <;> cases hk
  | append_singleton history c ih =>
    obtain ⟨hhistory, -, hlast⟩ := List.pairwise_append.mp h
    have hlog := ih hhistory
    -- What was there stays a fact about the longer history.
    have hwithin : ∀ e ∈ (RevisionStore.tablesAfter history : Database dateParse).changelog,
        ∃ d ∈ history ++ [c], d.2 = e.revision := by
      intro e he
      obtain ⟨d, hd, hrevision⟩ := hlog.within e he
      exact ⟨d, List.mem_append_left _ hd, hrevision⟩
    have hremoved : ∀ e ∈ (RevisionStore.tablesAfter history : Database dateParse).changelog,
        e.op = .delete → ∃ earlier write rest,
          history ++ [c] = earlier ++ (write, e.revision) :: rest ∧
            changeKey e ∈ (RevisionStore.tablesAfter earlier : Database dateParse).tupleKeys := by
      intro e he hop
      obtain ⟨earlier, write, rest, hsplit, hkey⟩ := hlog.removed e he hop
      refine ⟨earlier, write, rest ++ [c], ?_, hkey⟩
      rw [hsplit, List.append_assoc, List.cons_append]
    have hrun := tablesAfter_append_singleton dateParse history c
    rcases c.1.run_cases c.2 (RevisionStore.tablesAfter history : Database dateParse) with
      ⟨op, hlogged⟩ | ⟨hchangelog, hkeys⟩
    · rw [← hrun] at hlogged
      have hentry : ∀ e ∈ (RevisionStore.tablesAfter (history ++ [c]) :
          Database dateParse).changelog,
          e ∈ (RevisionStore.tablesAfter history : Database dateParse).changelog ∨
            e = RelationTupleWriter.change c.1.command op c.2 c.1.recordedAt := by
        intro e he
        rw [hlogged.changelog] at he
        rcases List.mem_append.mp he with he | he
        · exact Or.inl he
        · exact Or.inr (List.mem_singleton.mp he)
      constructor
      · rw [hlogged.changelog]
        apply hlog.ordered.append_singleton
        intro e he
        obtain ⟨d, hd, hrevision⟩ := hlog.within e he
        have hlt : d.2.value < c.2.value := hlast d hd c (List.mem_singleton.mpr rfl)
        rw [hrevision] at hlt
        exact hlt
      · intro e he
        rcases hentry e he with he | rfl
        · exact hwithin e he
        · exact ⟨c, List.mem_append_right _ (List.mem_singleton.mpr rfl), rfl⟩
      · rw [hlogged.keys, hlogged.changelog, CommitLog.replay_append_singleton, hlog.keys]
      · intro e he hop
        rcases hentry e he with he | rfl
        · exact hremoved e he hop
        · exact ⟨history, c.1, [], rfl, hlogged.present hop⟩
    · rw [← hrun] at hchangelog hkeys
      constructor
      · rw [hchangelog]
        exact hlog.ordered
      · rw [hchangelog]
        exact hwithin
      · rw [hchangelog, hkeys]
        exact hlog.keys
      · rw [hchangelog]
        exact hremoved

variable (dateParse) in
/-- Later commits append to the changelog, each under its own revision. -/
theorem changelog_append (history more : List (TupleWrite × Revision)) :
    ∃ entries, (RevisionStore.tablesAfter (history ++ more) : Database dateParse).changelog =
        (RevisionStore.tablesAfter history : Database dateParse).changelog ++ entries ∧
      ∀ e ∈ entries, ∃ d ∈ more, d.2 = e.revision := by
  induction more using List.reverseRecOn with
  | nil =>
    exact ⟨[], by rw [List.append_nil, List.append_nil], fun e he => absurd he List.not_mem_nil⟩
  | append_singleton more c ih =>
    obtain ⟨entries, hentries, hwithin⟩ := ih
    have hwithin' : ∀ e ∈ entries, ∃ d ∈ more ++ [c], d.2 = e.revision := by
      intro e he
      obtain ⟨d, hd, hrevision⟩ := hwithin e he
      exact ⟨d, List.mem_append_left _ hd, hrevision⟩
    rw [← List.append_assoc, tablesAfter_append_singleton]
    rcases c.1.run_cases c.2 (RevisionStore.tablesAfter (history ++ more) : Database dateParse) with
      ⟨op, hlogged⟩ | ⟨hchangelog, -⟩
    · refine ⟨entries ++ [RelationTupleWriter.change c.1.command op c.2 c.1.recordedAt], ?_, ?_⟩
      · rw [hlogged.changelog, hentries, List.append_assoc]
      · intro e he
        rcases List.mem_append.mp he with he | he
        · exact hwithin' e he
        · rw [List.mem_singleton.mp he]
          exact ⟨c, List.mem_append_right _ (List.mem_singleton.mpr rfl), rfl⟩
    · refine ⟨entries, ?_, hwithin'⟩
      rw [hchangelog, hentries]

/-- **The changelog replays to the tuples.**  Take a store at any point of a run, with any current
    revision `r`, and the run to any later point.  The changelog is in the order of the revisions;
    an organization's entries up to `r`, replayed, are the keys that it had at `r`; a key that is
    gone later has a `delete` entry in between; and a `delete` entry is of a key that the commits
    before it had left there. -/
theorem changelog_replays (before after : List StoreEvent) (orgId : OrgId) :
    let store := (RevisionStore.empty : RevisionStore dateParse).run before
    let later := store.run after
    CommitLog.Ordered (fun c => c.revision.value) later.committed.changelog ∧
      later.committed.replayed orgId store.committed.current =
        store.committed.tupleKeysOf orgId ∧
      (∀ k ∈ store.committed.tupleKeysOf orgId, k ∉ later.committed.tupleKeysOf orgId →
        ∃ e ∈ later.committed.changelog, e.op = .delete ∧ changeKey e = k ∧
          store.committed.current.value < e.revision.value) ∧
      ∀ e ∈ later.committed.changelog, e.op = .delete → ∃ earlier write rest,
        later.history = earlier ++ (write, e.revision) :: rest ∧
          changeKey e ∈ (RevisionStore.tablesAfter earlier : Database dateParse).tupleKeys := by
  intro store later
  have hstore : store.Ok := RevisionStore.Ok.empty.run before
  have hlater : later.Ok := hstore.run after
  obtain ⟨more, hmore⟩ := store.history_run after
  obtain ⟨hseen, hunseen⟩ := hstore.current hlater hmore
  have htables : store.committed = RevisionStore.tablesAfter store.history := hstore.replays
  have htables' : later.committed = RevisionStore.tablesAfter later.history := hlater.replays
  have hlog : LogOf dateParse store.history := LogOf.of_ordered hstore.ordered
  have hlog' : LogOf dateParse later.history := LogOf.of_ordered hlater.ordered
  obtain ⟨entries, hentries, hwithin⟩ :=
    changelog_append dateParse store.history more
  rw [show store.history ++ more = later.history from hmore.symm, ← htables', ← htables] at hentries
  have hold : ∀ e ∈ store.committed.changelog,
      e.revision.value ≤ store.committed.current.value := by
    intro e he
    rw [htables] at he
    obtain ⟨d, hd, hrevision⟩ := hlog.within e he
    rw [← hrevision]
    exact hseen d hd
  have hnew : ∀ e ∈ entries, store.committed.current.value < e.revision.value := by
    intro e he
    obtain ⟨d, hd, hrevision⟩ := hwithin e he
    rw [← hrevision]
    exact hunseen d hd
  refine ⟨?_, ?_, ?_, ?_⟩
  · rw [htables']
    exact hlog'.ordered
  · have hupTo : CommitLog.upTo (fun c => c.revision.value) store.committed.current.value
        (later.committed.changelog.filter fun c => c.orgId = orgId) =
          store.committed.changelog.filter fun c => c.orgId = orgId := by
      rw [hentries, List.filter_append]
      apply CommitLog.upTo_append
      · intro e he
        exact hold e (List.mem_of_mem_filter he)
      · intro e he
        exact hnew e (List.mem_of_mem_filter he)
    have hreplay : store.committed.tupleKeys = CommitLog.replay changeKey TupleChange.adds
        store.committed.changelog := by
      rw [htables]
      exact hlog.keys
    unfold Database.replayed Database.tupleKeysOf
    rw [hupTo, hreplay]
    refine (CommitLog.replay_filter fun k : OrgId × _ => decide (k.1 = orgId)).trans ?_
    ext k
    simp only [decide_eq_true_eq]
  · rintro k ⟨hk, horg⟩ hgone
    have hgone' : k ∉ later.committed.tupleKeys := fun hk' => hgone ⟨hk', horg⟩
    rw [htables, hlog.keys, ← htables] at hk
    rw [htables', hlog'.keys, ← htables', hentries] at hgone'
    obtain ⟨e, he, hadds, hkey⟩ := CommitLog.exists_removal hk hgone'
    refine ⟨e, ?_, ?_, hkey, hnew e he⟩
    · rw [hentries]
      exact List.mem_append_right _ he
    · unfold TupleChange.adds at hadds
      cases hop : e.op with
      | upsert =>
        rw [hop] at hadds
        cases hadds
      | delete => rfl
  · rw [htables']
    exact hlog'.removed

end AccessCore
