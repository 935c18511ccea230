/-
  What restricts a decision: forbid policies, the guardrail and the boundaries
  (`authz/domain/policy/decide.ts`, `boundary.ts`).

  A restriction may only take permits away, wherever it is put: the effect must not depend on the
  order of policies and boundaries, and nothing added on the side of the restrictions may turn a
  deny into a permit.  `RestrictionsRestrict` says so for one decision and everything that can be
  done to it.

  The crux is the boundary lookup.  Policies and the guardrail are read to the end, so for them the
  property always holds.  Of the boundaries listed for a subject only the first one counts, so a
  boundary that refuses is passed over as soon as one that allows stands before it.
  `restrictionsRestrict_iff` says exactly when that makes no difference.
-/
import AccessCore.Authz.Conditions

namespace AccessCore

variable {dateParse : String → Option Int}

/-! ## When a bounded decision permits -/

/-- The boundary that counts for `subject`: the first one listed for it. -/
def Bounds.boundaryOf (bounds : Bounds) (subject : EntityRef) : Option PermissionBoundary :=
  bounds.boundaries.find? fun candidate => candidate.subject = subject

theorem applyBounds_permit {decision : Decision} {target : BoundaryTarget} {subject : EntityRef}
    {bounds : Bounds} : (applyBounds decision target subject bounds).effect = .permit ↔
      decision.effect = .permit ∧
      (∀ guardrail, bounds.guardrail = some guardrail → allows guardrail.allow target = true) ∧
      ∀ boundary, bounds.boundaryOf subject = some boundary →
        allows boundary.allow target = true := by
  unfold applyBounds
  change _ ↔ _ ∧ _ ∧ ∀ boundary, (bounds.boundaries.find?
    fun candidate => candidate.subject = subject) = some boundary → _
  split_ifs with hdenied hguardrail hboundary
  · have hnot : ¬ decision.effect = .permit := hdenied
    simp [hnot]
  · obtain ⟨guardrail, hsome, hrefuses⟩ : ∃ guardrail, bounds.guardrail = some guardrail ∧
        allows guardrail.allow target = false := by simpa [Option.any_eq_true] using hguardrail
    constructor
    · intro h
      cases h
    · rintro ⟨-, hadmits, -⟩
      have hallows := hadmits guardrail hsome
      rw [hrefuses] at hallows
      cases hallows
  · obtain ⟨boundary, hsome, hrefuses⟩ : ∃ boundary, (bounds.boundaries.find?
        fun candidate => candidate.subject = subject) = some boundary ∧
        allows boundary.allow target = false := by
      simpa only [Option.any_eq_true, Bool.not_eq_true'] using hboundary
    constructor
    · intro h
      cases h
    · rintro ⟨-, -, hadmits⟩
      have hallows := hadmits boundary hsome
      rw [hrefuses] at hallows
      cases hallows
  · have hpermit : decision.effect = .permit := not_not.mp hdenied
    refine ⟨fun _ => ⟨hpermit, fun guardrail hsome => ?_, fun boundary hsome => ?_⟩,
      fun _ => hpermit⟩
    · rw [hsome] at hguardrail
      simpa using hguardrail
    · rw [hsome] at hboundary
      simpa using hboundary

/-- `applyBounds(decide(rebac, policies, ctx), target, subject, bounds).effect`. -/
def boundedEffect (rebac : Decision) (policies : List (Policy dateParse)) (ctx : PolicyContext)
    (target : BoundaryTarget) (subject : EntityRef) (bounds : Bounds) : Effect :=
  (applyBounds (decidePolicies rebac policies ctx) target subject bounds).effect

theorem boundedEffect_permit {rebac : Decision} {policies : List (Policy dateParse)}
    {ctx : PolicyContext} {target : BoundaryTarget} {subject : EntityRef} {bounds : Bounds} :
    boundedEffect rebac policies ctx target subject bounds = .permit ↔
      (decidePolicies rebac policies ctx).effect = .permit ∧
      (∀ guardrail, bounds.guardrail = some guardrail → allows guardrail.allow target = true) ∧
      ∀ boundary, bounds.boundaryOf subject = some boundary →
        allows boundary.allow target = true :=
  applyBounds_permit

/-- Two effects that permit together are the same. -/
theorem Effect.eq_of_permit_iff {e e' : Effect} (h : e = .permit ↔ e' = .permit) : e = e' := by
  cases e with
  | permit => exact (h.mp rfl).symm
  | deny =>
    cases e' with
    | permit => exact h.mpr rfl
    | deny => rfl

/-- More forbid rules and fewer permit rules permit less: what counts of a policy is its effect and
its condition. -/
theorem decidePolicies_permit_of_rules {rebac : Decision}
    {policies policies' : List (Policy dateParse)}
    {ctx : PolicyContext}
    (hforbids : ∀ p ∈ policies, p.effect = .forbid →
      ∃ p' ∈ policies', p'.effect = .forbid ∧ p'.condition = p.condition)
    (hpermits : ∀ p' ∈ policies', p'.effect = .permit →
      ∃ p ∈ policies, p.effect = .permit ∧ p.condition = p'.condition)
    (h : (decidePolicies rebac policies' ctx).effect = .permit) :
    (decidePolicies rebac policies ctx).effect = .permit := by
  rw [decidePolicies_permit] at h ⊢
  obtain ⟨hfail, hgrants⟩ := h
  refine ⟨fun p hp heffect => ?_, hgrants.imp_right ?_⟩
  · obtain ⟨p', hp', heffect', hcondition⟩ := hforbids p hp heffect
    rw [← hcondition]
    exact hfail p' hp' heffect'
  · rintro ⟨p', hp', heffect', hmatches⟩
    obtain ⟨p, hp, heffect, hcondition⟩ := hpermits p' hp' heffect'
    exact ⟨p, hp, heffect, hcondition ▸ hmatches⟩

theorem decidePolicies_permit_of {rebac : Decision} {policies policies' : List (Policy dateParse)}
    {ctx : PolicyContext} (hforbids : ∀ p ∈ policies, p.effect = .forbid → p ∈ policies')
    (hpermits : ∀ p ∈ policies', p.effect = .permit → p ∈ policies)
    (h : (decidePolicies rebac policies' ctx).effect = .permit) :
    (decidePolicies rebac policies ctx).effect = .permit :=
  decidePolicies_permit_of_rules (fun p hp heffect => ⟨p, hforbids p hp heffect, heffect, rfl⟩)
    (fun p hp heffect => ⟨p, hpermits p hp heffect, heffect, rfl⟩) h

/-- The decision depends on which policies there are, not on their order or number. -/
theorem decidePolicies_effect_of_mem {rebac : Decision}
    {policies policies' : List (Policy dateParse)}
    {ctx : PolicyContext} (h : ∀ p, p ∈ policies' ↔ p ∈ policies) :
    (decidePolicies rebac policies' ctx).effect = (decidePolicies rebac policies ctx).effect := by
  refine Effect.eq_of_permit_iff ⟨decidePolicies_permit_of ?_ ?_, decidePolicies_permit_of ?_ ?_⟩
  · exact fun p hp _ => (h p).mpr hp
  · exact fun p hp _ => (h p).mp hp
  · exact fun p hp _ => (h p).mp hp
  · exact fun p hp _ => (h p).mpr hp

/-! ## Restrictions -/

/-- The bounds with some entries of their allow lists removed. -/
structure Bounds.Narrower (bounds' bounds : Bounds) : Prop where
  guardrail : Option.Rel (fun g' g : OrgGuardrail => g'.allow.Sublist g.allow)
    bounds'.guardrail bounds.guardrail
  boundaries : List.Forall₂ (fun b' b : PermissionBoundary =>
    b'.subject = b.subject ∧ b'.allow.Sublist b.allow) bounds'.boundaries bounds.boundaries

section Restrictions

variable (rebac : Decision) (policies : List (Policy dateParse)) (ctx : PolicyContext)
  (target : BoundaryTarget) (subject : EntityRef) (bounds : Bounds)

/-- Restrictions only restrict, in any order: what must hold of a decision and of every change to
    its policies and bounds. -/
structure RestrictionsRestrict : Prop where
  order : ∀ policies' boundaries', policies'.Perm policies → boundaries'.Perm bounds.boundaries →
    boundedEffect rebac policies' ctx target subject { bounds with boundaries := boundaries' } =
      boundedEffect rebac policies ctx target subject bounds
  forbid_inserted : ∀ pre post forbid, policies = pre ++ post → forbid.effect = .forbid →
    boundedEffect rebac (pre ++ forbid :: post) ctx target subject bounds = .permit →
    boundedEffect rebac policies ctx target subject bounds = .permit
  boundary_inserted : ∀ pre post boundary, bounds.boundaries = pre ++ post →
    boundedEffect rebac policies ctx target subject
      { bounds with boundaries := pre ++ boundary :: post } = .permit →
    boundedEffect rebac policies ctx target subject bounds = .permit
  guardrail_added : ∀ guardrail, bounds.guardrail = none →
    boundedEffect rebac policies ctx target subject
      { bounds with guardrail := some guardrail } = .permit →
    boundedEffect rebac policies ctx target subject bounds = .permit
  allow_removed : ∀ bounds', bounds'.Narrower bounds →
    boundedEffect rebac policies ctx target subject bounds' = .permit →
    boundedEffect rebac policies ctx target subject bounds = .permit
  permit_inserted : ∀ pre post granting, policies = pre ++ post → granting.effect = .permit →
    boundedEffect rebac policies ctx target subject bounds = .permit →
    boundedEffect rebac (pre ++ granting :: post) ctx target subject bounds = .permit

variable {rebac policies ctx target subject bounds}

/-! ### What always holds -/

theorem allows_sublist {allow' allow : List BoundaryTarget} (h : allow'.Sublist allow)
    (hallows : allows allow' target = true) : allows allow target = true := by
  unfold allows at hallows ⊢
  obtain ⟨entry, hentry, hmatches⟩ := List.any_eq_true.mp hallows
  exact List.any_eq_true.mpr ⟨entry, h.subset hentry, hmatches⟩

/-- Narrower bounds list a boundary for the same subjects at the same places. -/
theorem boundaryOf_narrower {boundaries' boundaries : List PermissionBoundary}
    (h : List.Forall₂ (fun b' b : PermissionBoundary =>
      b'.subject = b.subject ∧ b'.allow.Sublist b.allow) boundaries' boundaries)
    {boundary : PermissionBoundary}
    (hfound : (boundaries.find? fun candidate => candidate.subject = subject) = some boundary) :
    ∃ boundary', (boundaries'.find? fun candidate => candidate.subject = subject) =
      some boundary' ∧ boundary'.allow.Sublist boundary.allow := by
  induction h with
  | nil => cases hfound
  | @cons b' b rest' rest hhead htail ih =>
    rw [List.find?_cons] at hfound ⊢
    rw [hhead.1]
    by_cases hsubject : b.subject = subject
    · simp only [hsubject, decide_true, Option.some.injEq] at hfound ⊢
      obtain rfl := hfound
      exact ⟨b', rfl, hhead.2⟩
    · simp only [hsubject, decide_false] at hfound ⊢
      exact ih hfound

theorem permit_of_forbid_inserted {pre post : List (Policy dateParse)} {forbid : Policy dateParse}
    (hpolicies : policies = pre ++ post) (hforbid : forbid.effect = .forbid)
    (h : boundedEffect rebac (pre ++ forbid :: post) ctx target subject bounds = .permit) :
    boundedEffect rebac policies ctx target subject bounds = .permit := by
  rw [boundedEffect_permit] at h ⊢
  obtain ⟨hdecided, hbounds⟩ := h
  refine ⟨decidePolicies_permit_of (fun p hp _ => ?_) (fun p hp heffect => ?_) hdecided, hbounds⟩
  · rw [hpolicies, List.mem_append] at hp
    rw [List.mem_append, List.mem_cons]
    exact hp.imp_right Or.inr
  · rw [hpolicies, List.mem_append]
    rw [List.mem_append, List.mem_cons] at hp
    refine hp.imp_right fun hp => hp.resolve_left ?_
    rintro rfl
    rw [hforbid] at heffect
    cases heffect

theorem permit_inserted {pre post : List (Policy dateParse)} {granting : Policy dateParse}
    (hpolicies : policies = pre ++ post) (hgranting : granting.effect = .permit)
    (h : boundedEffect rebac policies ctx target subject bounds = .permit) :
    boundedEffect rebac (pre ++ granting :: post) ctx target subject bounds = .permit := by
  rw [boundedEffect_permit] at h ⊢
  obtain ⟨hdecided, hbounds⟩ := h
  refine ⟨decidePolicies_permit_of (fun p hp heffect => ?_) (fun p hp _ => ?_) hdecided, hbounds⟩
  · rw [hpolicies, List.mem_append]
    rw [List.mem_append, List.mem_cons] at hp
    refine hp.imp_right fun hp => hp.resolve_left ?_
    rintro rfl
    rw [hgranting] at heffect
    cases heffect
  · rw [hpolicies, List.mem_append] at hp
    rw [List.mem_append, List.mem_cons]
    exact hp.imp_right Or.inr

theorem permit_of_guardrail_added {guardrail : OrgGuardrail} (hnone : bounds.guardrail = none)
    (h : boundedEffect rebac policies ctx target subject
      { bounds with guardrail := some guardrail } = .permit) :
    boundedEffect rebac policies ctx target subject bounds = .permit := by
  rw [boundedEffect_permit] at h ⊢
  obtain ⟨hdecided, -, hboundary⟩ := h
  refine ⟨hdecided, ?_, hboundary⟩
  rw [hnone]
  rintro g hg
  cases hg

theorem permit_of_narrower {bounds' : Bounds} (hnarrower : bounds'.Narrower bounds)
    (h : boundedEffect rebac policies ctx target subject bounds' = .permit) :
    boundedEffect rebac policies ctx target subject bounds = .permit := by
  rw [boundedEffect_permit] at h ⊢
  obtain ⟨hdecided, hguardrail, hboundary⟩ := h
  refine ⟨hdecided, fun guardrail hsome => ?_, fun boundary hfound => ?_⟩
  · have hrel := hnarrower.guardrail
    rw [hsome] at hrel
    cases hsome' : bounds'.guardrail with
    | none =>
      rw [hsome'] at hrel
      cases hrel
    | some guardrail' =>
      rw [hsome'] at hrel
      have hsub : guardrail'.allow.Sublist guardrail.allow := by
        cases hrel with
        | some hsub => exact hsub
      exact allows_sublist hsub (hguardrail guardrail' hsome')
  · obtain ⟨boundary', hfound', hsub⟩ := boundaryOf_narrower hnarrower.boundaries hfound
    exact allows_sublist hsub (hboundary boundary' hfound')

/-! ### The boundary lookup -/

/-- The boundary that counts is one of those listed for the subject. -/
theorem boundaryOf_mem {boundary : PermissionBoundary}
    (h : bounds.boundaryOf subject = some boundary) :
    boundary ∈ bounds.boundaries ∧ boundary.subject = subject := by
  have hfound := List.find?_some h
  exact ⟨List.mem_of_find?_eq_some h, by simpa using hfound⟩

/-- When all boundaries of the subject allow the target, the boundaries take nothing away. -/
theorem boundedEffect_permit_of_allowed
    (hall : ∀ boundary ∈ bounds.boundaries, boundary.subject = subject →
      allows boundary.allow target = true) :
    boundedEffect rebac policies ctx target subject bounds = .permit ↔
      (decidePolicies rebac policies ctx).effect = .permit ∧
      ∀ guardrail, bounds.guardrail = some guardrail → allows guardrail.allow target = true := by
  rw [boundedEffect_permit]
  constructor
  · rintro ⟨hdecided, hguardrail, -⟩
    exact ⟨hdecided, hguardrail⟩
  · rintro ⟨hdecided, hguardrail⟩
    refine ⟨hdecided, hguardrail, fun boundary hfound => ?_⟩
    obtain ⟨hmem, hsubject⟩ := boundaryOf_mem hfound
    exact hall boundary hmem hsubject

/-- What is denied whatever the boundaries say: a forbid policy may match, nobody grants, or the
guardrail refuses. -/
theorem not_permit_iff : ¬ ((decidePolicies rebac policies ctx).effect = .permit ∧
      ∀ guardrail, bounds.guardrail = some guardrail → allows guardrail.allow target = true) ↔
    (∃ policy ∈ policies, policy.effect = .forbid ∧
      evalCondition dateParse ctx policy.condition ≠ some false) ∨
    (rebac.effect = .deny ∧ ∀ policy ∈ policies, policy.effect = .permit →
      evalCondition dateParse ctx policy.condition ≠ some true) ∨
    ∃ guardrail, bounds.guardrail = some guardrail ∧ allows guardrail.allow target = false := by
  have hdeny : ¬ rebac.effect = .permit ↔ rebac.effect = .deny := by
    cases rebac.effect with
    | permit => decide
    | deny => decide
  rw [decidePolicies_permit, not_and_or, not_and_or, not_or, hdeny, or_assoc]
  push Not
  simp only [Bool.not_eq_true, ne_eq]

/-- **When restrictions only restrict.**  Exactly when the request is denied whatever the
boundaries say, or every boundary listed for the subject allows the target: then it does not matter
which of them the lookup finds. -/
theorem restrictionsRestrict_iff (rebac : Decision) (policies : List (Policy dateParse))
    (ctx : PolicyContext) (target : BoundaryTarget) (subject : EntityRef) (bounds : Bounds) :
    RestrictionsRestrict rebac policies ctx target subject bounds ↔
      (∃ policy ∈ policies, policy.effect = .forbid ∧
        evalCondition dateParse ctx policy.condition ≠ some false) ∨
      (rebac.effect = .deny ∧ ∀ policy ∈ policies, policy.effect = .permit →
        evalCondition dateParse ctx policy.condition ≠ some true) ∨
      (∃ guardrail, bounds.guardrail = some guardrail ∧ allows guardrail.allow target = false) ∨
      ∀ boundary ∈ bounds.boundaries, boundary.subject = subject →
        allows boundary.allow target = true := by
  have hcondition : (((decidePolicies rebac policies ctx).effect = .permit ∧
        ∀ guardrail, bounds.guardrail = some guardrail → allows guardrail.allow target = true) →
      ∀ boundary ∈ bounds.boundaries, boundary.subject = subject →
        allows boundary.allow target = true) ↔ _ := imp_iff_not_or
  rw [not_permit_iff, or_assoc, or_assoc] at hcondition
  rw [← hcondition]
  constructor
  · rintro h ⟨hdecided, hguardrail⟩ boundary hmem hsubject
    by_contra hrefuses
    by_cases hpermit : boundedEffect rebac policies ctx target subject bounds = .permit
    · -- Moved to the front, the boundary that refuses is the one the lookup finds.
      obtain ⟨pre, post, hsplit⟩ := List.append_of_mem hmem
      have hmoved : (boundary :: (pre ++ post)).Perm bounds.boundaries := by
        rw [hsplit]
        exact List.perm_middle.symm
      have hsame := h.order policies _ (List.Perm.refl policies) hmoved
      rw [hpermit, boundedEffect_permit] at hsame
      have hfound : (⟨boundary :: (pre ++ post), bounds.guardrail⟩ : Bounds).boundaryOf subject =
          some boundary := by simp [Bounds.boundaryOf, hsubject]
      exact hrefuses (hsame.2.2 boundary hfound)
    · -- A boundary that allows just the target hides the one that refuses.
      refine hpermit (h.boundary_inserted [] bounds.boundaries ⟨subject, [target]⟩ rfl ?_)
      rw [boundedEffect_permit]
      refine ⟨hdecided, hguardrail, fun found hfound => ?_⟩
      have hfirst : found = ⟨subject, [target]⟩ := by
        simpa [Bounds.boundaryOf, eq_comm] using hfound
      rw [hfirst]
      simp [allows]
  · intro hall
    refine ⟨?_, fun _ _ _ => permit_of_forbid_inserted, ?_, fun _ => permit_of_guardrail_added,
      fun _ => permit_of_narrower, fun _ _ _ => permit_inserted⟩
    · intro policies' boundaries' hpolicies hboundaries
      have hdecide : (decidePolicies rebac policies' ctx).effect =
          (decidePolicies rebac policies ctx).effect :=
        decidePolicies_effect_of_mem fun p => hpolicies.mem_iff
      refine Effect.eq_of_permit_iff ?_
      by_cases hreached : (decidePolicies rebac policies ctx).effect = .permit ∧
          ∀ guardrail, bounds.guardrail = some guardrail → allows guardrail.allow target = true
      · have hallowed := hall hreached
        rw [boundedEffect_permit_of_allowed hallowed, boundedEffect_permit_of_allowed, hdecide]
        exact fun boundary hmem => hallowed boundary (hboundaries.mem_iff.mp hmem)
      · rw [boundedEffect_permit, boundedEffect_permit, hdecide]
        constructor
        · rintro ⟨hdecided, hguardrail, -⟩
          exact absurd ⟨hdecided, hguardrail⟩ hreached
        · rintro ⟨hdecided, hguardrail, -⟩
          exact absurd ⟨hdecided, hguardrail⟩ hreached
    · intro pre post boundary _ hpermit
      rw [boundedEffect_permit] at hpermit
      obtain ⟨hdecided, hguardrail, -⟩ := hpermit
      rw [boundedEffect_permit_of_allowed (hall ⟨hdecided, hguardrail⟩)]
      exact ⟨hdecided, hguardrail⟩

/-- A reader of documents with two boundaries: one for viewing, one for editing. -/
def twoBoundaries : Bounds :=
  ⟨[⟨⟨"user", "alice"⟩, [⟨"document", "view"⟩]⟩, ⟨⟨"user", "alice"⟩, [⟨"document", "edit"⟩]⟩], none⟩

/-- In the other order alice may no longer view documents. -/
theorem not_restrictionsRestrict : ¬ ∀ (rebac : Decision) (policies : List (Policy noDates))
    (ctx : PolicyContext) (target : BoundaryTarget) (subject : EntityRef) (bounds : Bounds),
    RestrictionsRestrict rebac policies ctx target subject bounds := by
  intro h
  have halice := h (permit []) [] addressUnknown ⟨"document", "view"⟩
    ⟨"user", "alice"⟩ twoBoundaries
  have hswapped := halice.order [] twoBoundaries.boundaries.reverse (List.Perm.refl _)
    (List.reverse_perm _)
  exact absurd hswapped (by decide)

end Restrictions

end AccessCore
