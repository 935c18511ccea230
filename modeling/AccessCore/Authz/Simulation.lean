/-
  Trying policies out (`PdpService.simulate`): what a check would say if the policies of the
  organization were replaced by an overlay.

  The check reads the applicable policies with a query, the simulation filters the overlay in
  memory, and each composes the steps of a decision by itself.  They agree because a decision
  depends on the rules that apply and on nothing else: `simulate_predicts`.

  Ids are unique in the table but need not be in an overlay, so what is stored in place of an
  overlay has the same rules, under ids of its own.
-/
import AccessCore.Authz.Bounds
import AccessCore.Authz.Isolation

namespace AccessCore

variable {dateParse : String → Option Int}

structure SimulationResult where
  decision : Decision
  live : Decision
  changed : Bool

/-- `resolve` of `simulate`. -/
def resolvePrepared (rebac : Decision) (policyContext : PolicyContext) (target : BoundaryTarget)
    (subject : EntityRef) (policies : List (Policy dateParse)) : Decision :=
  applyBounds (decidePolicies rebac policies policyContext) target subject unbounded

/-- The policies of an overlay that apply to `target`. -/
def overlayFor (target : BoundaryTarget) (overlay : List (Policy dateParse)) :
    List (Policy dateParse) :=
  overlay.filter fun policy => policy.resourceType = target.resourceType &&
    (policy.action = target.action || policy.action = anyAction)

/-- `PdpService.simulate`, in a transaction of its own. -/
def Database.simulate (db : Database dateParse) (principal : Principal) (action : Action)
    (resource : EntityRef) (request : RequestContext) (now : Int)
    (overlay : Option (List (Policy dateParse))) : SimulationResult :=
  match (prepare principal action resource request now (EvaluationContext.opened db)).1 with
  | .deny decision _ => ⟨decision, decision, false⟩
  | .ok rebac applicable policyContext target subject _ =>
    let live := resolvePrepared rebac policyContext target subject applicable
    let overlayPolicies := match overlay with
      | some overlay => overlayFor target overlay
      | none => applicable
    let proposed := resolvePrepared rebac policyContext target subject overlayPolicies
    ⟨proposed, live, proposed.effect ≠ live.effect⟩

/-! ## Stored in place of an overlay -/

/-- The same rule: everything but the id and the revision. -/
structure Policy.SameRule (p q : Policy dateParse) : Prop where
  orgId : p.orgId = q.orgId
  effect : p.effect = q.effect
  resourceType : p.resourceType = q.resourceType
  action : p.action = q.action
  condition : p.condition = q.condition

/-- `stored` is what the table of policies holds after the policies of the organization have been
replaced by the overlay. -/
structure Database.Replaced (db : Database dateParse) (orgId : OrgId)
    (overlay : List (Policy dateParse)) (stored : Table (Policy dateParse) String (·.id)) :
    Prop where
  rows : ∀ row ∈ stored.rows, row.orgId = orgId → ∃ p ∈ overlay, row.SameRule p
  overlay : ∀ p ∈ overlay, ∃ row ∈ stored.rows, row.SameRule p
  others : ∀ row, row.orgId ≠ orgId → (row ∈ stored.rows ↔ row ∈ db.policies.rows)

/-- The policies after a change that an overlay proposes; without an overlay they stay. -/
def Database.AfterOverlay (db : Database dateParse) (orgId : OrgId)
    (overlay : Option (List (Policy dateParse)))
    (stored : Table (Policy dateParse) String (·.id)) : Prop :=
  match overlay with
  | none => stored = db.policies
  | some overlay => db.Replaced orgId overlay stored

/-- A text that is not in a list. -/
theorem exists_fresh_id (ids : List String) : ∃ id, id ∉ ids := by
  obtain ⟨id, hid⟩ := Infinite.exists_notMem_finset ids.toFinset
  exact ⟨id, by simpa using hid⟩

/-- Every overlay can be stored, under fresh ids. -/
theorem Database.exists_replaced (db : Database dateParse) (orgId : OrgId) :
    ∀ overlay : List (Policy dateParse), (∀ p ∈ overlay, p.orgId = orgId) →
      ∃ stored, db.Replaced orgId overlay stored := by
  intro overlay
  induction overlay with
  | nil =>
    intro _
    refine ⟨db.policies.delete fun policy => policy.orgId = orgId, ?_, ?_, ?_⟩
    · intro row hrow horg
      have hkept := (List.mem_filter.mp hrow).2
      simp [horg] at hkept
    · intro p hp
      cases hp
    · intro row hne
      simp [Table.delete, hne]
  | cons p overlay ih =>
    intro horgs
    obtain ⟨stored, hstored⟩ := ih fun q hq => horgs q (List.mem_cons_of_mem _ hq)
    obtain ⟨id, hid⟩ := exists_fresh_id (stored.rows.map (·.id))
    have horg : p.orgId = orgId := horgs p List.mem_cons_self
    have hsame : Policy.SameRule { p with id := id } p := ⟨rfl, rfl, rfl, rfl, rfl⟩
    let added : Table (Policy dateParse) String (·.id) :=
      ⟨{ p with id := id } :: stored.rows, List.nodup_cons.mpr ⟨hid, stored.keyed⟩⟩
    refine ⟨added, ?_, ?_, ?_⟩
    · intro row hrow hrowOrg
      rcases List.mem_cons.mp hrow with rfl | hrow
      · exact ⟨p, List.mem_cons_self, hsame⟩
      · obtain ⟨q, hq, hrule⟩ := hstored.rows row hrow hrowOrg
        exact ⟨q, List.mem_cons_of_mem _ hq, hrule⟩
    · intro q hq
      rcases List.mem_cons.mp hq with rfl | hq
      · exact ⟨_, List.mem_cons_self, hsame⟩
      · obtain ⟨row, hrow, hrule⟩ := hstored.overlay q hq
        exact ⟨row, List.mem_cons_of_mem _ hrow, hrule⟩
    · intro row hne
      have hnew : row ≠ { p with id := id } := by
        rintro rfl
        exact hne horg
      rw [← hstored.others row hne]
      simp [added, hnew]

/-! ## The two filters -/

/-- The query and the filter in memory keep the same rules. -/
theorem decidePolicies_overlay {db : Database dateParse} {orgId : OrgId}
    {overlay : List (Policy dateParse)} {stored : Table (Policy dateParse) String (·.id)}
    (h : db.Replaced orgId overlay stored) (horgs : ∀ p ∈ overlay, p.orgId = orgId)
    (rebac : Decision) (policyContext : PolicyContext) (target : BoundaryTarget) :
    (decidePolicies rebac (overlayFor target overlay) policyContext).effect =
      (decidePolicies rebac (({ db with policies := stored }).listByTarget orgId
        target.resourceType target.action) policyContext).effect := by
  have hlisted : ∀ row, row ∈ ({ db with policies := stored }).listByTarget orgId
      target.resourceType target.action ↔ row ∈ stored.rows ∧ row.orgId = orgId ∧
        row.resourceType = target.resourceType ∧
        (row.action = target.action ∨ row.action = anyAction) := by
    intro row
    simp [Database.listByTarget, Table.select, and_assoc]
  have hfiltered : ∀ p, p ∈ overlayFor target overlay ↔ p ∈ overlay ∧
      p.resourceType = target.resourceType ∧
      (p.action = target.action ∨ p.action = anyAction) := by
    intro p
    simp [overlayFor]
  have hdown : ∀ row ∈ ({ db with policies := stored }).listByTarget orgId target.resourceType
      target.action, ∃ p ∈ overlayFor target overlay, row.SameRule p := by
    intro row hrow
    obtain ⟨hmem, horg, htype, haction⟩ := (hlisted row).mp hrow
    obtain ⟨p, hp, hrule⟩ := h.rows row hmem horg
    refine ⟨p, (hfiltered p).mpr ⟨hp, ?_, ?_⟩, hrule⟩
    · rw [← hrule.resourceType, htype]
    · rw [← hrule.action]
      exact haction
  have hup : ∀ p ∈ overlayFor target overlay, ∃ row ∈ ({ db with policies := stored }).listByTarget
      orgId target.resourceType target.action, row.SameRule p := by
    intro p hp
    obtain ⟨hmem, htype, haction⟩ := (hfiltered p).mp hp
    obtain ⟨row, hrow, hrule⟩ := h.overlay p hmem
    refine ⟨row, (hlisted row).mpr ⟨hrow, ?_, ?_, ?_⟩, hrule⟩
    · rw [hrule.orgId, horgs p hmem]
    · rw [hrule.resourceType, htype]
    · rw [hrule.action]
      exact haction
  refine Effect.eq_of_permit_iff ⟨decidePolicies_permit_of_rules ?_ ?_,
    decidePolicies_permit_of_rules ?_ ?_⟩
  · intro row hrow heffect
    obtain ⟨p, hp, hrule⟩ := hdown row hrow
    exact ⟨p, hp, hrule.effect ▸ heffect, hrule.condition.symm⟩
  · intro p hp heffect
    obtain ⟨row, hrow, hrule⟩ := hup p hp
    exact ⟨row, hrow, hrule.effect.trans heffect, hrule.condition⟩
  · intro p hp heffect
    obtain ⟨row, hrow, hrule⟩ := hup p hp
    exact ⟨row, hrow, hrule.effect.trans heffect, hrule.condition⟩
  · intro row hrow heffect
    obtain ⟨p, hp, hrule⟩ := hdown row hrow
    exact ⟨p, hp, hrule.effect ▸ heffect, hrule.condition.symm⟩

/-! ## Simulation and check -/

section Simulate

variable (db : Database dateParse) (principal : Principal) (action : Action) (resource : EntityRef)
  (request : RequestContext) (now : Int) (overlay : Option (List (Policy dateParse)))

/-- A check is what its preparation comes to. -/
theorem evaluated_eq : db.evaluated principal action resource request now =
    resultOf (prepare principal action resource request now (EvaluationContext.opened db)).1 :=
  rfl

theorem simulate_live : (db.simulate principal action resource request now overlay).live =
    (db.evaluated principal action resource request now).decision := by
  rw [evaluated_eq, Database.simulate]
  cases (prepare principal action resource request now (EvaluationContext.opened db)).1 with
  | deny decision revisionUsed => rfl
  | ok rebac applicable policyContext target subject revisionUsed => rfl

theorem simulate_changed :
    (db.simulate principal action resource request now overlay).changed = true ↔
      (db.simulate principal action resource request now overlay).decision.effect ≠
        (db.simulate principal action resource request now overlay).live.effect := by
  unfold Database.simulate
  cases (prepare principal action resource request now (EvaluationContext.opened db)).1 with
  | deny decision revisionUsed => simp
  | ok rebac applicable policyContext target subject revisionUsed => simp

theorem simulate_none : (db.simulate principal action resource request now none).decision =
    (db.evaluated principal action resource request now).decision := by
  rw [evaluated_eq, Database.simulate]
  cases (prepare principal action resource request now (EvaluationContext.opened db)).1 with
  | deny decision revisionUsed => rfl
  | ok rebac applicable policyContext target subject revisionUsed => rfl

/-- The policies aside, two states show every organization the same. -/
theorem sameOrg_policies (stored : Table (Policy dateParse) String (·.id)) (orgId : OrgId) :
    SameOrg db { db with policies := stored } orgId :=
  ⟨rfl, rfl, fun _ => rfl⟩

theorem simulate_some {orgId : OrgId} (horg : ∀ o, principal.orgId = some o → o = orgId)
    {overlay : List (Policy dateParse)} (horgs : ∀ p ∈ overlay, p.orgId = orgId)
    {stored : Table (Policy dateParse) String (·.id)} (h : db.Replaced orgId overlay stored) :
    (db.simulate principal action resource request now (some overlay)).decision.effect =
      (({ db with policies := stored }).evaluated principal action resource request
        now).decision.effect := by
  have hrevision : (EvaluationContext.opened { db with policies := stored }).revisionUsed =
      (EvaluationContext.opened db).revisionUsed := rfl
  rw [evaluated_eq, Database.simulate]
  unfold prepare
  cases hprincipal : principal.orgId with
  | none => rfl
  | some o =>
    obtain rfl := horg o hprincipal
    have hs := sameOrg_policies db stored o
    simp only [hrevision]
    split_ifs with hunmet
    · rfl
    · simp only [resultOf, resolvePrepared, applyBounds_unbounded,
        EvaluationContext.cachedNamespace_fst, ← hs.namespaces]
      rw [← loadClosure_sameOrg hs]
      exact decidePolicies_overlay h horgs _ _ ⟨resource.type, action.verb⟩

/-- **Simulation predicts the check.**  Whatever table the policies end up in when an overlay of
the principal's organization takes the place of the stored ones, the proposed effect is that of an
uncached check there, the live one that of the check now, and `changed` tells them apart.  And there
always is such a table. -/
theorem simulate_predicts (orgId : OrgId) (horg : ∀ o, principal.orgId = some o → o = orgId)
    (horgs : ∀ policies, overlay = some policies → ∀ p ∈ policies, p.orgId = orgId) :
    (∃ stored, db.AfterOverlay orgId overlay stored) ∧
    ∀ stored, db.AfterOverlay orgId overlay stored →
      let result := db.simulate principal action resource request now overlay
      let before := db.evaluated principal action resource request now
      let after := ({ db with policies := stored }).evaluated principal action resource request now
      result.decision.effect = after.decision.effect ∧
      result.live.effect = before.decision.effect ∧
      (result.changed = true ↔ after.decision.effect ≠ before.decision.effect) := by
  have hdecision : ∀ stored, db.AfterOverlay orgId overlay stored →
      (db.simulate principal action resource request now overlay).decision.effect =
        (({ db with policies := stored }).evaluated principal action resource request
          now).decision.effect := by
    intro stored hstored
    cases overlay with
    | none =>
      have hsame : stored = db.policies := hstored
      rw [hsame, simulate_none]
    | some policies =>
      exact simulate_some db principal action resource request now horg (horgs policies rfl) hstored
  constructor
  · cases overlay with
    | none => exact ⟨db.policies, rfl⟩
    | some policies => exact db.exists_replaced orgId policies (horgs policies rfl)
  · intro stored hstored
    refine ⟨hdecision stored hstored, congrArg Decision.effect (simulate_live ..), ?_⟩
    rw [simulate_changed, hdecision stored hstored, simulate_live]

end Simulate

/-- Asks for a document at level two. -/
def steppedUpAnn : Principal := ⟨⟨"user", "ann"⟩, some steppedUpOrOffice.orgId, 2, none⟩

/-- Nobody may view a document. -/
def closedDocuments (orgId : OrgId) : Policy noDates where
  id := "closed-" ++ orgId.value
  orgId := orgId
  effect := .forbid
  resourceType := "document"
  action := "view"
  condition := .cmp .ge (.attr .principalAal) (.lit (.number 0))
  revision := ⟨1⟩
  accepted := by rfl

/-- Two organizations whose documents are closed. -/
def closedStore : Database noDates :=
  { (Database.empty : Database noDates) with
    policies := ⟨[closedDocuments steppedUpOrOffice.orgId, closedDocuments globex], by decide⟩ }

/-- The table after the overlay has taken the place of the policies of the one. -/
def openedPolicies : Table (Policy noDates) String (·.id) :=
  ⟨[closedDocuments globex, steppedUpOrOffice], by decide⟩

theorem openedPolicies_replaced :
    closedStore.Replaced steppedUpOrOffice.orgId [steppedUpOrOffice] openedPolicies := by
  have hother : globex ≠ steppedUpOrOffice.orgId := by decide
  refine ⟨fun row hrow horg => ?_, fun p hp => ?_, fun row hne => ?_⟩
  · rcases List.mem_cons.mp hrow with rfl | hrow
    · exact absurd horg hother
    · exact ⟨row, hrow, rfl, rfl, rfl, rfl, rfl⟩
  · exact ⟨p, List.mem_cons_of_mem _ hp, rfl, rfl, rfl, rfl, rfl⟩
  · constructor
    · intro hrow
      rcases List.mem_cons.mp hrow with rfl | hrow
      · exact List.mem_cons_of_mem _ (List.mem_singleton_self _)
      · obtain rfl := List.mem_singleton.mp hrow
        exact absurd rfl hne
    · intro hrow
      rcases List.mem_cons.mp hrow with rfl | hrow
      · exact absurd rfl hne
      · obtain rfl := List.mem_singleton.mp hrow
        exact List.mem_cons_self ..

/-- The overlay opens the documents to Ann. -/
theorem simulate_predicts_ann :
    let viewing : Action := ⟨"document", "view", by decide, by decide⟩
    let plan : EntityRef := ⟨"document", "plan"⟩
    let request : RequestContext := ⟨"10.0.0.7", .full⟩
    let result := closedStore.simulate steppedUpAnn viewing plan request 0
      (some [steppedUpOrOffice])
    let before := closedStore.evaluated steppedUpAnn viewing plan request 0
    let after := ({ closedStore with policies := openedPolicies }).evaluated steppedUpAnn viewing
      plan request 0
    (result.decision.effect = after.decision.effect ∧
      result.live.effect = before.decision.effect ∧
      (result.changed = true ↔ after.decision.effect ≠ before.decision.effect)) ∧
    before.decision.effect = .deny ∧ after.decision.effect = .permit := by
  intro viewing plan request
  have horg : ∀ o, steppedUpAnn.orgId = some o → o = steppedUpOrOffice.orgId := by
    intro o ho
    exact (Option.some.inj ho).symm
  have horgs : ∀ overlay, some [steppedUpOrOffice] = some overlay →
      ∀ p ∈ overlay, p.orgId = steppedUpOrOffice.orgId := by
    rintro overlay h p hp
    obtain rfl := Option.some.inj h
    obtain rfl := List.mem_singleton.mp hp
    rfl
  have hpredicts := (simulate_predicts closedStore steppedUpAnn viewing plan request 0
    (some [steppedUpOrOffice]) steppedUpOrOffice.orgId horg horgs).2 openedPolicies
      openedPolicies_replaced
  exact ⟨hpredicts, by decide +kernel, by decide +kernel⟩

end AccessCore
