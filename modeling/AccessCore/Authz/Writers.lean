/-
  The writers of the administration plane (`authz/application/relation-tuple-writer.ts`,
  `namespace-config-writer.ts`, `policy-writer.ts`, `db/drizzle-revisions.repository.ts`).

  A writer runs in one transaction: it allocates a revision, changes a table, and returns a token.
  The revision comes from a sequence of the database and is a parameter here.  A writer that throws
  or refuses leaves the state as it was.
-/
import AccessCore.Authz.Pdp

namespace AccessCore

variable {dateParse : String → Option Int}

/-- `allocate`, once the sequence has handed out a number: the row of that revision. -/
def Database.allocate (db : Database dateParse) (allocated : Revision) : Database dateParse :=
  { db with revisions := db.revisions ++ [allocated] }

/-! ## Relation tuples -/

structure RelationTupleCommand where
  orgId : OrgId
  object : EntityRef
  relation : String
  subject : SubjectRef
deriving DecidableEq

namespace RelationTupleWriter

/-- The changelog entry of a command. -/
def change (command : RelationTupleCommand) (op : TupleChangeOp) (revision : Revision)
    (recordedAt : Int) : TupleChange :=
  ⟨command.orgId, revision, op, command.object, command.relation, encodeSubject command.subject,
    recordedAt⟩

def write (command : RelationTupleCommand) (recordedAt : Int) (allocated : Revision)
    (db : Database dateParse) : Except String (ConsistencyToken × Database dateParse) := do
  let db := db.allocate allocated
  let tuple ← RelationTuple.write command.orgId command.object command.relation command.subject
    allocated recordedAt
  let db := db.upsertTuple tuple
  let db := db.appendChange (change command .upsert allocated recordedAt)
  return (⟨allocated⟩, db)

def revoke (command : RelationTupleCommand) (recordedAt : Int) (allocated : Revision)
    (db : Database dateParse) : ConsistencyToken × Database dateParse :=
  let db := db.allocate allocated
  let removed := db.deleteTuple command.orgId command.object command.relation command.subject
  if 0 < removed.2 then
    (⟨allocated⟩, removed.1.appendChange (change command .delete allocated recordedAt))
  else (⟨allocated⟩, removed.1)

end RelationTupleWriter

/-! ## Namespace definitions -/

structure DefineNamespaceCommand where
  orgId : OrgId
  namespace_ : String
  config : NamespaceConfigData

inductive DefineNamespaceError where
  | config (error : NamespaceConfigError)
  | invalidNamespace
deriving DecidableEq, Repr

def NamespaceConfigWriter.define (command : DefineNamespaceCommand) (createdAt : Int)
    (allocated : Revision) (db : Database dateParse) :
    Except DefineNamespaceError (ConsistencyToken × Database dateParse) :=
  if !isIdentifier command.namespace_ then .error .invalidNamespace
  else
    match NamespaceConfig.create command.config with
    | .error error => .error (.config error)
    | .ok config =>
      let db := db.allocate allocated
      let definition := ⟨command.orgId, command.namespace_, config, allocated, createdAt⟩
      .ok (⟨allocated⟩, db.saveDefinition definition)

/-! ## Policies -/

structure WritePolicyCommand where
  orgId : OrgId
  id : String
  effect : PolicyEffect
  resourceType : String
  action : String
  condition : Condition

inductive PolicyWriterError where
  | condition (error : ConditionError)
  | invalidPolicy
deriving DecidableEq, Repr

namespace PolicyWriter

/-- The checks of `write` before its transaction; an effect is `permit` or `forbid` by its type. -/
def accept (dateParse : String → Option Int) (command : WritePolicyCommand) :
    Except PolicyWriterError Unit :=
  if !isIdentifier command.id || !isIdentifier command.resourceType then .error .invalidPolicy
  else if command.action ≠ anyAction && !isIdentifier command.action then .error .invalidPolicy
  else
    match parseCondition dateParse command.condition with
    | .ok _ => .ok ()
    | .error error => .error (.condition error)

theorem accept_condition {command : WritePolicyCommand} (h : accept dateParse command = .ok ()) :
    parseCondition dateParse command.condition = .ok command.condition := by
  unfold accept at h
  split_ifs at h
  split at h
  · next condition hc =>
    have heq : condition = command.condition := by
      unfold parseCondition at hc
      split at hc
      · exact (Except.ok.inj hc).symm
      · cases hc
    rw [heq] at hc
    exact hc
  · cases h

/-- The row an accepted command writes. -/
def policyOf (command : WritePolicyCommand) (allocated : Revision)
    (h : accept dateParse command = .ok ()) : Policy dateParse :=
  ⟨command.id, command.orgId, command.effect, command.resourceType, command.action,
    command.condition, allocated, accept_condition h⟩

def write (command : WritePolicyCommand) (allocated : Revision) (db : Database dateParse) :
    Except PolicyWriterError (ConsistencyToken × Database dateParse) :=
  match h : accept dateParse command with
  | .error error => .error error
  | .ok () => .ok (⟨allocated⟩, (db.allocate allocated).upsertPolicy (policyOf command allocated h))

def delete (orgId : OrgId) (id : String) (allocated : Revision) (db : Database dateParse) :
    ConsistencyToken × Database dateParse :=
  (⟨allocated⟩, (db.allocate allocated).deletePolicyById orgId id)

end PolicyWriter

/-! ## Administration as a sequence of operations -/

/-- One call of a writer, with its reading of the clock. -/
inductive AdminOperation where
  | writeTuple (command : RelationTupleCommand) (recordedAt : Int)
  | revokeTuple (command : RelationTupleCommand) (recordedAt : Int)
  | defineNamespace (command : DefineNamespaceCommand) (createdAt : Int)
  | writePolicy (command : WritePolicyCommand)
  | deletePolicy (orgId : OrgId) (id : String)

namespace AdminOperation

/-- The organization an operation is performed for. -/
def orgId : AdminOperation → OrgId
  | .writeTuple command _ => command.orgId
  | .revokeTuple command _ => command.orgId
  | .defineNamespace command _ => command.orgId
  | .writePolicy command => command.orgId
  | .deletePolicy orgId _ => orgId

/-- The state a transaction leaves: the old one when it is refused. -/
def committed {ε : Type} (db : Database dateParse)
    (result : Except ε (ConsistencyToken × Database dateParse)) : Database dateParse :=
  match result with
  | .ok (_, db') => db'
  | .error _ => db

/-- The state after an operation. -/
def run (allocated : Revision) (db : Database dateParse) : AdminOperation → Database dateParse
  | .writeTuple command recordedAt =>
    committed db (RelationTupleWriter.write command recordedAt allocated db)
  | .revokeTuple command recordedAt =>
    (RelationTupleWriter.revoke command recordedAt allocated db).2
  | .defineNamespace command createdAt =>
    committed db (NamespaceConfigWriter.define command createdAt allocated db)
  | .writePolicy command => committed db (PolicyWriter.write command allocated db)
  | .deletePolicy orgId id => (PolicyWriter.delete orgId id allocated db).2

/-- The policy id an accepted policy write stores under. -/
def writtenPolicyId (dateParse : String → Option Int) : AdminOperation → Option String
  | .writePolicy command =>
    match PolicyWriter.accept dateParse command with
    | .ok () => some command.id
    | .error _ => none
  | _ => none

/-- The state after a sequence of operations, each with the revision it is handed. -/
def runAll (steps : List (AdminOperation × Revision)) (db : Database dateParse) :
    Database dateParse :=
  steps.foldl (fun db step => step.1.run step.2 db) db

end AdminOperation

/-! ## What a writer commits -/

/-- A write that is refused, or commits its revision with at most one changelog entry. -/
def WritesLog (db db' : Database dateParse) (r : Revision) : Prop :=
  db' = db ∨
    (db'.revisions = db.revisions ++ [r] ∧ ∃ entries, db'.changelog = db.changelog ++ entries ∧
      entries.length ≤ 1 ∧ ∀ e ∈ entries, e.revision = r)

theorem AdminOperation.run_log (operation : AdminOperation) (r : Revision)
    (db : Database dateParse) : WritesLog db (operation.run r db) r := by
  have hrefused : WritesLog db db r := Or.inl rfl
  have hsilent : ∀ db' : Database dateParse, db'.revisions = db.revisions ++ [r] →
      db'.changelog = db.changelog → WritesLog db db' r := by
    intro db' hrevisions hchangelog
    refine Or.inr ⟨hrevisions, [], ?_, by simp, fun e he => absurd he List.not_mem_nil⟩
    rw [hchangelog, List.append_nil]
  have hlogged : ∀ (db' : Database dateParse) (change : TupleChange),
      db'.revisions = db.revisions ++ [r] → db'.changelog = db.changelog ++ [change] →
      change.revision = r → WritesLog db db' r := by
    intro db' change hrevisions hchangelog hchange
    refine Or.inr ⟨hrevisions, [change], hchangelog, by simp, ?_⟩
    intro e he
    rw [List.mem_singleton.mp he]
    exact hchange
  cases operation with
  | writeTuple command recordedAt =>
    show WritesLog db (AdminOperation.committed db
      (RelationTupleWriter.write command recordedAt r db)) r
    unfold RelationTupleWriter.write
    cases RelationTuple.write command.orgId command.object command.relation command.subject r
        recordedAt with
    | error message => exact hrefused
    | ok tuple =>
      exact hlogged _ (RelationTupleWriter.change command .upsert r recordedAt) rfl rfl rfl
  | revokeTuple command recordedAt =>
    show WritesLog db (RelationTupleWriter.revoke command recordedAt r db).2 r
    unfold RelationTupleWriter.revoke
    dsimp only
    split_ifs
    · exact hlogged _ (RelationTupleWriter.change command .delete r recordedAt) rfl rfl rfl
    · exact hsilent _ rfl rfl
  | defineNamespace command createdAt =>
    show WritesLog db (AdminOperation.committed db
      (NamespaceConfigWriter.define command createdAt r db)) r
    unfold NamespaceConfigWriter.define
    split_ifs
    · exact hrefused
    · cases NamespaceConfig.create command.config with
      | error error => exact hrefused
      | ok config => exact hsilent _ rfl rfl
  | writePolicy command =>
    show WritesLog db (AdminOperation.committed db (PolicyWriter.write command r db)) r
    unfold PolicyWriter.write
    split
    · exact hrefused
    · exact hsilent _ rfl rfl
  | deletePolicy orgId id => exact hsilent _ rfl rfl

end AccessCore
