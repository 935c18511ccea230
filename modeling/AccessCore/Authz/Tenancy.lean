/-
  What the administration of one organization does to another.

  Tuples, definitions, changelog entries and index rows carry the organization in their keys, so an
  operation never touches those of another organization (`run_unseen`).  The policies are keyed by
  their id alone: an accepted policy write takes the policy with that id away from whoever owned it
  (`run_policies`).  `tenants_isolated` says that this is the only way one organization reaches
  another, over sequences of any length.
-/
import AccessCore.Authz.Isolation
import AccessCore.Authz.Writers
import AccessCore.Authz.Sufficiency

namespace AccessCore

variable {dateParse : String → Option Int} {db db' : Database dateParse} {orgId : OrgId}

/-! ## What another organization's operations leave alone -/

/-- Everything but the policies of an organization is as it was. -/
structure Unseen (db db' : Database dateParse) (orgId : OrgId) : Prop where
  tuples : db'.tuplesOf orgId = db.tuplesOf orgId
  definitions : (db'.definitions.select fun d => d.orgId = orgId) =
    db.definitions.select fun d => d.orgId = orgId
  changelog : (db'.changelog.filter fun c => c.orgId = orgId) =
    db.changelog.filter fun c => c.orgId = orgId
  membershipSets : db'.membershipSets = db.membershipSets
  memberships : db'.memberships = db.memberships
  current : db.current.value ≤ db'.current.value

namespace Unseen

theorem refl (db : Database dateParse) (orgId : OrgId) : Unseen db db orgId :=
  ⟨rfl, rfl, rfl, rfl, rfl, Nat.le_refl _⟩

theorem trans {db'' : Database dateParse} (h : Unseen db db' orgId) (h' : Unseen db' db'' orgId) :
    Unseen db db'' orgId :=
  ⟨h'.tuples.trans h.tuples, h'.definitions.trans h.definitions, h'.changelog.trans h.changelog,
    h'.membershipSets.trans h.membershipSets, h'.memberships.trans h.memberships,
    Nat.le_trans h.current h'.current⟩

/-- The index view of an organization depends on its own rows only. -/
theorem view (h : Unseen db db' orgId) (member : EntityRef) :
    db.indexedView orgId member = db'.indexedView orgId member := by
  have hhits : db'.membershipsOf orgId member = db.membershipsOf orgId member := by
    unfold Database.membershipsOf
    rw [h.memberships, h.membershipSets]
  have hversion : db'.organizationVersion orgId = db.organizationVersion orgId := by
    unfold Database.organizationVersion
    rw [h.changelog, h.definitions]
  unfold Database.indexedView
  rw [hhits, hversion]

theorem sameOrg (h : Unseen db db' orgId) : SameOrg db db' orgId :=
  ⟨h.tuples.symm, h.definitions.symm, h.view⟩

end Unseen

theorem allocate_unseen (db : Database dateParse) (allocated : Revision) (orgId : OrgId) :
    Unseen db (db.allocate allocated) orgId := by
  refine ⟨rfl, rfl, rfl, rfl, rfl, ?_⟩
  have happend := Database.maxRevision_append db.revisions allocated
  show (Database.maxRevision db.revisions).value ≤ (Database.maxRevision (_ ++ _)).value
  omega

theorem upsertTuple_unseen {tuple : RelationTuple} (h : tuple.orgId ≠ orgId) :
    Unseen db (db.upsertTuple tuple) orgId := by
  refine ⟨?_, rfl, rfl, rfl, rfl, Nat.le_refl _⟩
  apply Table.select_upsert
  case hmerge => exact fun _ _ hkey => hkey
  case hnew => exact decide_eq_false h
  case hold =>
    intro old _ hkey
    have horg : old.orgId = tuple.orgId := congrArg Prod.fst hkey
    simp [horg, h]

theorem deleteTuple_unseen {org : OrgId} (object : EntityRef) (relation : String)
    (subject : SubjectRef) (h : org ≠ orgId) :
    Unseen db (db.deleteTuple org object relation subject).1 orgId := by
  refine ⟨?_, rfl, rfl, rfl, rfl, Nat.le_refl _⟩
  apply Table.select_delete
  intro tuple _ hsel
  have horg : tuple.orgId = orgId := by simpa using hsel
  have hne : ¬ orgId = org := fun heq => h heq.symm
  simp [Database.matchesKey, horg, hne]

theorem appendChange_unseen {change : TupleChange} (h : change.orgId ≠ orgId) :
    Unseen db (db.appendChange change) orgId := by
  refine ⟨rfl, rfl, ?_, rfl, rfl, Nat.le_refl _⟩
  simp [Database.appendChange, List.filter_append, h]

theorem saveDefinition_unseen {definition : NamespaceDefinition} (h : definition.orgId ≠ orgId) :
    Unseen db (db.saveDefinition definition) orgId := by
  refine ⟨rfl, ?_, rfl, rfl, rfl, Nat.le_refl _⟩
  apply Table.select_upsert
  case hmerge => exact fun _ _ hkey => hkey
  case hnew => exact decide_eq_false h
  case hold =>
    intro old _ hkey
    have horg : old.orgId = definition.orgId := congrArg Prod.fst hkey
    simp [horg, h]

/-- **Another organization's operation** leaves everything but the policies as it was. -/
theorem run_unseen (db : Database dateParse) {op : AdminOperation} (allocated : Revision)
    (h : op.orgId ≠ orgId) :
    Unseen db (op.run allocated db) orgId := by
  have hallocated := allocate_unseen db allocated orgId
  cases op with
  | writeTuple command recordedAt =>
    show Unseen db (AdminOperation.committed db
      (RelationTupleWriter.write command recordedAt allocated db)) orgId
    unfold RelationTupleWriter.write
    cases hwrite : RelationTuple.write command.orgId command.object command.relation
        command.subject allocated recordedAt with
    | error message => exact Unseen.refl db orgId
    | ok tuple =>
      have horg : tuple.orgId ≠ orgId := by
        rw [(RelationTuple.write_ok hwrite).1]
        exact h
      exact hallocated.trans ((upsertTuple_unseen horg).trans (appendChange_unseen h))
  | revokeTuple command recordedAt =>
    show Unseen db (RelationTupleWriter.revoke command recordedAt allocated db).2 orgId
    have hdeleted := hallocated.trans
      (deleteTuple_unseen command.object command.relation command.subject h)
    unfold RelationTupleWriter.revoke
    dsimp only
    split_ifs
    · exact hdeleted.trans (appendChange_unseen h)
    · exact hdeleted
  | defineNamespace command createdAt =>
    show Unseen db (AdminOperation.committed db
      (NamespaceConfigWriter.define command createdAt allocated db)) orgId
    unfold NamespaceConfigWriter.define
    split_ifs
    · exact Unseen.refl db orgId
    · cases NamespaceConfig.create command.config with
      | error error => exact Unseen.refl db orgId
      | ok config => exact hallocated.trans (saveDefinition_unseen h)
  | writePolicy command =>
    show Unseen db (AdminOperation.committed db (PolicyWriter.write command allocated db)) orgId
    unfold PolicyWriter.write
    split
    · exact Unseen.refl db orgId
    · exact hallocated.trans ⟨rfl, rfl, rfl, rfl, rfl, Nat.le_refl _⟩
  | deletePolicy org id => exact hallocated.trans ⟨rfl, rfl, rfl, rfl, rfl, Nat.le_refl _⟩

/-- The policies of an organization. -/
def Database.policiesOf (db : Database dateParse) (orgId : OrgId) : List (Policy dateParse) :=
  db.policies.select fun policy => policy.orgId = orgId

/-- The conflict target of a policy write is the id alone. -/
theorem upsertPolicy_policies (db : Database dateParse) (policy : Policy dateParse)
    (h : policy.orgId ≠ orgId) :
    (db.upsertPolicy policy).policiesOf orgId =
      (db.policiesOf orgId).filter fun old => old.id ≠ policy.id := by
  refine Table.select_upsert_out (fun _ _ _ => rfl) ?_ fun _ => ?_
  · exact decide_eq_false h
  · exact decide_eq_false h

/-- **Another organization's policy write** takes the policy with its id away. -/
theorem run_policies (db : Database dateParse) {op : AdminOperation} (allocated : Revision)
    (h : op.orgId ≠ orgId) :
    (op.run allocated db).policiesOf orgId = (db.policiesOf orgId).filter fun policy =>
      op.writtenPolicyId dateParse ≠ some policy.id := by
  have keep : ∀ {op : AdminOperation}, op.writtenPolicyId dateParse = none →
      db.policiesOf orgId = (db.policiesOf orgId).filter fun policy =>
        op.writtenPolicyId dateParse ≠ some policy.id := fun hnone => by
    rw [hnone]
    exact (List.filter_eq_self.mpr fun _ _ => by simp).symm
  cases op with
  | writeTuple command recordedAt =>
    rw [← keep rfl]
    show (AdminOperation.committed db
      (RelationTupleWriter.write command recordedAt allocated db)).policiesOf orgId = _
    unfold RelationTupleWriter.write
    cases RelationTuple.write command.orgId command.object command.relation
        command.subject allocated recordedAt with
    | error message => rfl
    | ok tuple => rfl
  | revokeTuple command recordedAt =>
    rw [← keep rfl]
    show (RelationTupleWriter.revoke command recordedAt allocated db).2.policiesOf orgId = _
    unfold RelationTupleWriter.revoke
    dsimp only
    split_ifs <;> rfl
  | defineNamespace command createdAt =>
    rw [← keep rfl]
    show (AdminOperation.committed db
      (NamespaceConfigWriter.define command createdAt allocated db)).policiesOf orgId = _
    unfold NamespaceConfigWriter.define
    split_ifs
    · rfl
    · cases NamespaceConfig.create command.config <;> rfl
  | writePolicy command =>
    show (AdminOperation.committed db (PolicyWriter.write command allocated db)).policiesOf orgId =
      _
    unfold PolicyWriter.write
    split
    · next error hrefused =>
      have hnone : (AdminOperation.writePolicy command).writtenPolicyId dateParse = none := by
        simp [AdminOperation.writtenPolicyId, hrefused]
      rw [← keep hnone]
      rfl
    · next haccepted =>
      have hsome : (AdminOperation.writePolicy command).writtenPolicyId dateParse =
          some command.id := by
        simp [AdminOperation.writtenPolicyId, haccepted]
      have hwritten := upsertPolicy_policies (db.allocate allocated)
        (PolicyWriter.policyOf command allocated haccepted) h
      rw [hsome]
      refine hwritten.trans ?_
      refine List.filter_congr fun policy _ => decide_eq_decide.mpr ?_
      exact ⟨fun hid heq => hid (Option.some.inj heq).symm, fun hid heq => hid (by rw [heq]; rfl)⟩
  | deletePolicy org id =>
    rw [← keep rfl]
    apply Table.select_delete
    intro policy _ hsel
    have horg : policy.orgId = orgId := by simpa using hsel
    have hne : ¬ orgId = org := fun heq => h heq.symm
    simp [horg, hne]

/-! ## Sequences -/

theorem runAll_unseen : ∀ (steps : List (AdminOperation × Revision)) (db : Database dateParse),
    (∀ step ∈ steps, step.1.orgId ≠ orgId) → Unseen db (AdminOperation.runAll steps db) orgId := by
  intro steps
  induction steps with
  | nil => intro db _; exact Unseen.refl db orgId
  | cons step steps ih =>
    intro db h
    have hstep := run_unseen db step.2 (h step (List.mem_cons_self ..))
    exact hstep.trans (ih _ fun s hs => h s (List.mem_cons_of_mem _ hs))

/-- What is left of an organization's policies: those whose id no step has written. -/
theorem runAll_policies : ∀ (steps : List (AdminOperation × Revision)) (db : Database dateParse),
    (∀ step ∈ steps, step.1.orgId ≠ orgId) →
    (AdminOperation.runAll steps db).policiesOf orgId = (db.policiesOf orgId).filter fun policy =>
      ∀ step ∈ steps, step.1.writtenPolicyId dateParse ≠ some policy.id := by
  intro steps
  induction steps with
  | nil =>
    intro db _
    exact (List.filter_eq_self.mpr fun _ _ => by simp).symm
  | cons step steps ih =>
    intro db h
    have hrest := ih (step.1.run step.2 db) fun s hs => h s (List.mem_cons_of_mem _ hs)
    have hstep := run_policies db step.2 (h step (List.mem_cons_self ..))
    show (AdminOperation.runAll steps (step.1.run step.2 db)).policiesOf orgId = _
    rw [hrest, hstep, List.filter_filter]
    refine List.filter_congr fun policy _ => ?_
    rw [← Bool.decide_and, decide_eq_decide, and_comm]
    simp only [List.mem_cons, forall_eq_or_imp]

/-! ## Isolation -/

/-- Two states are the same to an organization: what its repositories list is the same, and so is
    the effect of every check one of its principals can make, in the same request context and at the
    same reading of the clock, as far as the first state has the revision the request asks for. -/
structure SameTo (orgId : OrgId) (db db' : Database dateParse) : Prop where
  tuples : ∀ object relation, db'.listByObject orgId object relation =
    db.listByObject orgId object relation
  namespaces : ∀ type, (db'.findByNamespace orgId type) = db.findByNamespace orgId type
  policies : ∀ resourceType action, db'.listByTarget orgId resourceType action =
    db.listByTarget orgId resourceType action
  checks : ∀ (principal : Principal) (action : Action) (resource : EntityRef)
    (request : RequestContext) (now : Int), principal.orgId = some orgId →
    (∀ r, request.consistency.requiredRevision = some r → r.value ≤ db.current.value) →
    (db'.evaluated principal action resource request now).decision.effect =
      (db.evaluated principal action resource request now).decision.effect

theorem listByTarget_eq (db : Database dateParse) (orgId : OrgId) (resourceType action : String) :
    db.listByTarget orgId resourceType action = (db.policiesOf orgId).filter fun policy =>
      policy.resourceType = resourceType &&
        (policy.action = action || policy.action = anyAction) := by
  unfold Database.listByTarget Database.policiesOf Table.select
  rw [List.filter_filter]
  refine List.filter_congr fun policy _ => ?_
  by_cases ho : policy.orgId = orgId <;> simp [ho]

/-- With its policies and everything else as they were, the state is the same to an organization. -/
theorem Unseen.sameTo (h : Unseen db db' orgId)
    (hpolicies : db'.policiesOf orgId = db.policiesOf orgId) : SameTo orgId db db' where
  tuples object relation := (h.sameOrg.rows object relation).symm
  namespaces type := (h.sameOrg.namespaces type).symm
  policies resourceType action := by
    rw [listByTarget_eq, listByTarget_eq, hpolicies]
  checks principal action resource request now horg hrequired := by
    have htargets : db.listByTarget orgId resource.type action.verb =
        db'.listByTarget orgId resource.type action.verb := by
      rw [listByTarget_eq, listByTarget_eq, hpolicies]
    -- the required revision was reached before, and revisions only grow
    have hmet : ∀ r, request.consistency.requiredRevision = some r →
        db.current.isAtLeast r = db'.current.isAtLeast r := fun r hr => by
      have hbefore := hrequired r hr
      have hafter := Nat.le_trans hbefore h.current
      simp [Revision.isAtLeast, hbefore, hafter]
    have hdecision := evaluateWithin_sameOrg action resource request now
      (EvaluationContext.opened db) (EvaluationContext.opened db') horg h.sameOrg htargets hmet
    exact congrArg Decision.effect hdecision.symm

/-- **Tenants are isolated up to policy ids.**  A sequence of operations of one organization leaves
    the state the same to another if and only if no accepted policy write of the sequence uses the
    id of a policy the other one owned at the start. -/
theorem tenants_isolated (db : Database dateParse) (a b : OrgId) (hne : b ≠ a)
    (steps : List (AdminOperation × Revision)) (hsteps : ∀ step ∈ steps, step.1.orgId = b) :
    SameTo a db (AdminOperation.runAll steps db) ↔
      ∀ step ∈ steps, ∀ policy ∈ db.policies.rows, policy.orgId = a →
        step.1.writtenPolicyId dateParse ≠ some policy.id := by
  have hothers : ∀ step ∈ steps, step.1.orgId ≠ a := fun step hs => by
    rw [hsteps step hs]
    exact hne
  have hpolicies := runAll_policies steps db hothers
  constructor
  · intro hsame step hstep policy hrow horg
    -- a policy that is still listed has survived every step
    have hmem : policy ∈ db.listByTarget a policy.resourceType policy.action := by
      rw [listByTarget_eq]
      simp [Database.policiesOf, Table.select, hrow, horg]
    rw [← hsame.policies, listByTarget_eq, hpolicies] at hmem
    have hkept := (List.mem_filter.mp (List.mem_filter.mp hmem).1).2
    exact of_decide_eq_true hkept step hstep
  · intro hids
    apply (runAll_unseen steps db hothers).sameTo
    rw [hpolicies, List.filter_eq_self]
    intro policy hmem
    have hrow : policy ∈ db.policies.rows ∧ policy.orgId = a := by
      simpa [Database.policiesOf, Table.select] using hmem
    exact decide_eq_true fun step hstep => hids step hstep policy hrow.1 hrow.2

/-- A policy write that freezes or frees viewing for its organization, whatever the assurance. -/
def viewPolicy (orgId : OrgId) (id : String) (effect : PolicyEffect) : WritePolicyCommand :=
  ⟨orgId, id, effect, "document", "view", .cmp .ge (.attr .principalAal) (.lit (.number 0))⟩

/-- The staff of acme may view the plan, but viewing is frozen. -/
def frozenStore : Database fun _ => none :=
  (AdminOperation.writePolicy (viewPolicy acme "freeze" .forbid)).run ⟨1⟩ staffStore

/-- Ann, signed in to acme. -/
def annAtAcme : Principal := ⟨⟨"user", "ann"⟩, some acme, 1, none⟩

theorem tenants_isolated_frozen : SameTo acme frozenStore
    (AdminOperation.runAll [(.writePolicy (viewPolicy globex "open" .permit), ⟨2⟩)] frozenStore) :=
  (tenants_isolated frozenStore acme globex (by decide) _ (by decide)).mpr (by decide)

theorem tenants_not_isolated : (AdminOperation.writePolicy (viewPolicy globex "freeze"
      .permit)).orgId = globex ∧ globex ≠ acme ∧
    ¬ SameTo acme frozenStore (AdminOperation.runAll
      [(.writePolicy (viewPolicy globex "freeze" .permit), ⟨2⟩)] frozenStore) ∧
    (frozenStore.evaluated annAtAcme annViewsPlan.action annViewsPlan.resource ⟨"", .full⟩
      0).decision.effect = .deny ∧
    ((AdminOperation.runAll [(.writePolicy (viewPolicy globex "freeze" .permit), ⟨2⟩)]
      frozenStore).evaluated annAtAcme annViewsPlan.action annViewsPlan.resource ⟨"", .full⟩
      0).decision.effect = .permit := by
  have hbefore : (frozenStore.evaluated annAtAcme annViewsPlan.action annViewsPlan.resource
      ⟨"", .full⟩ 0).decision.effect = .deny := by decide
  have hafter : ((AdminOperation.runAll [(.writePolicy (viewPolicy globex "freeze" .permit), ⟨2⟩)]
      frozenStore).evaluated annAtAcme annViewsPlan.action annViewsPlan.resource ⟨"", .full⟩
      0).decision.effect = .permit := by decide
  refine ⟨rfl, by decide, fun hsame => ?_, hbefore, hafter⟩
  have hchecks := hsame.checks annAtAcme annViewsPlan.action annViewsPlan.resource ⟨"", .full⟩ 0 rfl
    (fun r hr => absurd hr (by simp [ConsistencyRequirement.requiredRevision]))
  rw [hbefore, hafter] at hchecks
  cases hchecks

end AccessCore
