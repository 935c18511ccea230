/-
  The path of a permit is a certificate.

  A grant carries the keys of the tuples it rests on.  `Proves path goal` says that every key of
  the path is the key of a stored tuple, and that `goal` holds of every set of facts closed under
  the tuples with those keys alone, other stored tuples being allowed but not needed.  The walk
  builds its path along the derivation it finds, so each of its cases proves its own goal from the
  goals of its calls; an intersection concatenates the paths of all its operands.

  Exclusions are left out: what a subtracted operand does not grant rests on the absence of tuples,
  which no list of keys can show.
-/
import AccessCore.Authz.UnionOnly

namespace AccessCore

variable (namespaces : NamespaceRegistry) (orgId : OrgId) (tuples : List RelationTuple)

/-- The snapshot that holds only the tuples with the listed keys. -/
def EvaluationSnapshot.certificate (path : List String) : EvaluationSnapshot :=
  .plain namespaces orgId (tuples.filter fun tuple => tuple.key ∈ path)

/-- The key of a stored tuple of the organization. -/
def StoredKey (key : String) : Prop := ∃ tuple ∈ tuples, tuple.orgId = orgId ∧ tuple.key = key

/-- `path` lists stored keys, and they are enough for `goal`. -/
structure Proves (path : List String) (goal : TupleIndex → Set Fact → Prop) : Prop where
  stored : ∀ key ∈ path, StoredKey orgId tuples key
  enough : ∀ (listed : List String) (M : Set Fact), path ⊆ listed →
    (EvaluationSnapshot.certificate namespaces orgId tuples listed).yields M M ⊆ M →
    goal (EvaluationSnapshot.certificate namespaces orgId tuples listed).tuples M

variable {namespaces orgId tuples}

/-- A subject of a bucket is still there when the key of its tuple is listed. -/
theorem subjectsOf_certificate {object : EntityRef} {relation : String} {subject : SubjectRef}
    (h : subject ∈ (TupleIndex.of orgId tuples).subjectsOf object relation) {listed : List String}
    (hkey : tupleKey object relation subject ∈ listed) :
    subject ∈ (EvaluationSnapshot.certificate namespaces orgId tuples listed).tuples.subjectsOf
      object relation := by
  rw [TupleIndex.subjectsOf_eq] at h
  obtain ⟨tuple, htuple, rfl⟩ := List.mem_map.mp h
  obtain ⟨hmem, hfields⟩ := List.mem_filter.mp htuple
  obtain ⟨horg, hobject, hrelation⟩ : tuple.orgId = orgId ∧ tuple.object = object ∧
      tuple.relation = relation := by simpa using hfields
  have hlisted : tuple.key ∈ listed := by
    subst hobject hrelation
    exact hkey
  unfold EvaluationSnapshot.certificate EvaluationSnapshot.plain
  rw [TupleIndex.subjectsOf_eq]
  refine List.mem_map.mpr ⟨tuple, List.mem_filter.mpr ⟨?_, hfields⟩, rfl⟩
  exact List.mem_filter.mpr ⟨hmem, by simpa using hlisted⟩

/-- The key of a subject in a bucket is stored. -/
theorem storedKey_of_mem {object : EntityRef} {relation : String} {subject : SubjectRef}
    (h : subject ∈ (TupleIndex.of orgId tuples).subjectsOf object relation) :
    StoredKey orgId tuples (tupleKey object relation subject) := by
  rw [TupleIndex.subjectsOf_eq] at h
  obtain ⟨tuple, htuple, rfl⟩ := List.mem_map.mp h
  obtain ⟨hmem, hfields⟩ := List.mem_filter.mp htuple
  obtain ⟨horg, rfl, rfl⟩ : tuple.orgId = orgId ∧ tuple.object = object ∧
      tuple.relation = relation := by simpa using hfields
  exact ⟨tuple, hmem, horg, rfl⟩

namespace Proves

variable {path rest : List String} {goal goal' : TupleIndex → Set Fact → Prop}

theorem imp (h : Proves namespaces orgId tuples path goal)
    (hgoal : ∀ index M, goal index M → goal' index M) :
    Proves namespaces orgId tuples path goal' where
  stored := h.stored
  enough listed M hpath hclosed := hgoal _ _ (h.enough listed M hpath hclosed)

/-- A row of a bucket may be put in front of a path. -/
theorem cons {object : EntityRef} {relation : String} {subject : SubjectRef}
    (hmem : subject ∈ (TupleIndex.of orgId tuples).subjectsOf object relation)
    (h : Proves namespaces orgId tuples path goal) :
    Proves namespaces orgId tuples (tupleKey object relation subject :: path)
      (fun index M => subject ∈ index.subjectsOf object relation ∧ goal index M) where
  stored key hkey := by
    rcases List.mem_cons.mp hkey with rfl | hkey
    · exact storedKey_of_mem hmem
    · exact h.stored key hkey
  enough listed M hpath hclosed := by
    obtain ⟨hkey, hpath'⟩ := List.cons_subset.mp hpath
    exact ⟨subjectsOf_certificate hmem hkey, h.enough listed M hpath' hclosed⟩

theorem append (h : Proves namespaces orgId tuples path goal)
    (h' : Proves namespaces orgId tuples rest goal') :
    Proves namespaces orgId tuples (path ++ rest)
      (fun index M => goal index M ∧ goal' index M) where
  stored key hkey := by
    rcases List.mem_append.mp hkey with hkey | hkey
    · exact h.stored key hkey
    · exact h'.stored key hkey
  enough listed M hpath hclosed := by
    obtain ⟨hleft, hright⟩ := List.append_subset.mp hpath
    exact ⟨h.enough listed M hleft hclosed, h'.enough listed M hright hclosed⟩

theorem nil : Proves namespaces orgId tuples [] (fun _ _ => True) where
  stored _ hkey := absurd hkey List.not_mem_nil
  enough _ _ _ _ := trivial

end Proves

/-! ## The cases of the walk -/

section Derive

variable {recur : EntityRef → String → Nat → Walk → Derived} {target object : EntityRef}
  {relation : String} {depth : Nat}

/-- Every grant of the calls proves the fact that was asked for. -/
def ProvesNodes (namespaces : NamespaceRegistry) (orgId : OrgId) (tuples : List RelationTuple)
    (target : EntityRef) (recur : EntityRef → String → Nat → Walk → Derived) : Prop :=
  ∀ ref rel d walk grant walk', recur ref rel d walk = some (some grant, walk') →
    Proves namespaces orgId tuples grant.path (fun _ M => ⟨ref, rel, target⟩ ∈ M)

/-- A grant of a tree proves that the tree grants. -/
def ProvesTree (namespaces : NamespaceRegistry) (orgId : OrgId) (tuples : List RelationTuple)
    (target object : EntityRef) (relation : String) (rewrite : Userset) (grant : Grant) : Prop :=
  Proves namespaces orgId tuples grant.path
    (fun index M => Grants index object relation target M M rewrite)

theorem deriveUsersets_proves (hrec : ProvesNodes namespaces orgId tuples target recur)
    {subjects : List SubjectRef}
    (hsub : subjects ⊆ (TupleIndex.of orgId tuples).subjectsOf object relation) {walk walk' : Walk}
    {grant : Grant}
    (h : deriveUsersets recur (.plain namespaces orgId tuples) target object relation
      depth subjects walk = some (some grant, walk')) :
    ProvesTree namespaces orgId tuples target object relation .this grant := by
  induction subjects generalizing walk with
  | nil => simp [deriveUsersets] at h
  | cons subject subjects ih =>
    obtain ⟨hmem, hrest⟩ := List.cons_subset.mp hsub
    cases subject with
    | subject ref => exact ih hrest h
    | userset ref rel =>
      have hindex : indexedWithin (.plain namespaces orgId tuples) ref rel target (depth + 1) =
          false := rfl
      rw [deriveUsersets, hindex, if_neg Bool.false_ne_true] at h
      cases hcall : recur ref rel (depth + 1) walk with
      | none => simp [hcall] at h
      | some result =>
        obtain ⟨sub, walk₁⟩ := result
        cases sub with
        | none =>
          simp only [hcall, Option.bind_eq_bind, Option.bind_some] at h
          exact ih hrest h
        | some sub =>
          have hgrant : grant.path =
              tupleKey object relation (.userset ref rel) :: sub.path := by
            simp only [hcall, Option.bind_eq_bind, Option.bind_some, Option.pure_def,
              Option.some.injEq, Prod.mk.injEq] at h
            rw [← h.1]
          have hsub := (hrec _ _ _ _ _ _ hcall).cons hmem
          unfold ProvesTree
          rw [hgrant]
          refine hsub.imp fun index M hgoal => ?_
          rw [Grants]
          exact Or.inr ⟨ref, rel, hgoal⟩

theorem deriveThis_proves (hrec : ProvesNodes namespaces orgId tuples target recur)
    {walk walk' : Walk} {grant : Grant}
    (h : deriveThis recur (.plain namespaces orgId tuples) target object relation depth walk =
      some (some grant, walk')) :
    ProvesTree namespaces orgId tuples target object relation .this grant := by
  unfold deriveThis at h
  dsimp only at h
  split_ifs at h with hdirect
  · have hgrant : grant.path = [tupleKey object relation (.subject target)] := by
      simp only [Option.some.injEq, Prod.mk.injEq] at h
      rw [← h.1]
    have hempty : Proves namespaces orgId tuples [] (fun _ _ => True) := Proves.nil
    have hrow := hempty.cons hdirect
    unfold ProvesTree
    rw [hgrant]
    refine hrow.imp fun index M hgoal => ?_
    rw [Grants]
    exact Or.inl hgoal.1
  · exact deriveUsersets_proves hrec (List.Subset.refl _) h

theorem deriveTupleset_proves (hrec : ProvesNodes namespaces orgId tuples target recur)
    {tupleset computed : String} {subjects : List SubjectRef}
    (hsub : subjects ⊆ (TupleIndex.of orgId tuples).subjectsOf object tupleset) {walk walk' : Walk}
    {grant : Grant} (h : deriveTupleset recur object depth tupleset computed subjects walk =
      some (some grant, walk')) :
    ProvesTree namespaces orgId tuples target object relation (.tupleToUserset tupleset computed)
      grant := by
  induction subjects generalizing walk with
  | nil => simp [deriveTupleset] at h
  | cons subject subjects ih =>
    obtain ⟨hmem, hrest⟩ := List.cons_subset.mp hsub
    cases subject with
    | userset ref rel => exact ih hrest h
    | subject ref =>
      rw [deriveTupleset] at h
      cases hcall : recur ref computed (depth + 1) walk with
      | none => simp [hcall] at h
      | some result =>
        obtain ⟨sub, walk₁⟩ := result
        cases sub with
        | none =>
          simp only [hcall, Option.bind_eq_bind, Option.bind_some] at h
          exact ih hrest h
        | some sub =>
          have hgrant : grant.path = tupleKey object tupleset (.subject ref) :: sub.path := by
            simp only [hcall, Option.bind_eq_bind, Option.bind_some, Option.pure_def,
              Option.some.injEq, Prod.mk.injEq] at h
            rw [← h.1]
          have hsub := (hrec _ _ _ _ _ _ hcall).cons hmem
          unfold ProvesTree
          rw [hgrant]
          refine hsub.imp fun index M hgoal => ?_
          rw [Grants]
          exact ⟨ref, hgoal⟩

theorem deriveUnion_proves {children : List Userset}
    (hchildren : ∀ child ∈ children, ∀ walk walk' grant,
      deriveRewrite recur (.plain namespaces orgId tuples) target object relation depth child walk =
        some (some grant, walk') →
      ProvesTree namespaces orgId tuples target object relation child grant) {walk walk' : Walk}
    {grant : Grant} (h : deriveUnion recur (.plain namespaces orgId tuples) target object relation
      depth children walk = some (some grant, walk')) :
    ProvesTree namespaces orgId tuples target object relation (.union children) grant := by
  induction children generalizing walk with
  | nil => simp [deriveUnion] at h
  | cons child children ih =>
    rw [deriveUnion] at h
    cases hchild : deriveRewrite recur (.plain namespaces orgId tuples) target object relation depth
        child walk with
    | none => simp [hchild] at h
    | some result =>
      obtain ⟨first, walk₁⟩ := result
      cases first with
      | some first =>
        simp only [hchild, Option.bind_eq_bind, Option.bind_some, Option.pure_def,
          Option.some.injEq, Prod.mk.injEq] at h
        obtain ⟨rfl, -⟩ := h
        refine (hchildren child List.mem_cons_self walk walk₁ first hchild).imp
          fun index M hgoal => ?_
        rw [Grants, GrantsSome]
        exact Or.inl hgoal
      | none =>
        simp only [hchild, Option.bind_eq_bind, Option.bind_some] at h
        have hrest := ih (fun c hc => hchildren c (List.mem_cons_of_mem _ hc)) h
        refine hrest.imp fun index M hgoal => ?_
        rw [Grants] at hgoal ⊢
        rw [GrantsSome]
        exact Or.inr hgoal

/-- The path of an intersection adds the paths of all its operands to the path so far. -/
theorem deriveIntersection_proves {children : List Userset}
    (hchildren : ∀ child ∈ children, ∀ walk walk' grant,
      deriveRewrite recur (.plain namespaces orgId tuples) target object relation depth child walk =
        some (some grant, walk') →
      ProvesTree namespaces orgId tuples target object relation child grant)
    {path : List String} {goal : TupleIndex → Set Fact → Prop}
    (hpath : Proves namespaces orgId tuples path goal) {walk walk' : Walk} {grant : Grant}
    (h : deriveIntersection recur (.plain namespaces orgId tuples) target object relation depth
      children path walk = some (some grant, walk')) :
    Proves namespaces orgId tuples grant.path (fun index M =>
      goal index M ∧ Grants index object relation target M M (.intersection children)) := by
  induction children generalizing path goal with
  | nil =>
    simp only [deriveIntersection, Option.some.injEq, Prod.mk.injEq] at h
    obtain ⟨rfl, -⟩ := h
    refine hpath.imp fun index M hgoal => ⟨hgoal, ?_⟩
    rw [Grants, GrantsEvery]
    trivial
  | cons child children ih =>
    rw [deriveIntersection] at h
    cases hchild : deriveRewrite recur (.plain namespaces orgId tuples) target object relation depth
        child Walk.fresh with
    | none => simp [hchild] at h
    | some result =>
      obtain ⟨first, walk₁⟩ := result
      simp only [hchild, Option.bind_eq_bind, Option.bind_some] at h
      split_ifs at h with hcut
      · simp at h
      · cases first with
        | none => simp at h
        | some first =>
          have hfirst := hchildren child List.mem_cons_self _ _ first hchild
          have hrest := ih (fun c hc => hchildren c (List.mem_cons_of_mem _ hc))
            (hpath.append hfirst) h
          refine hrest.imp fun index M hgoal => ?_
          obtain ⟨⟨hgoal, hgrants⟩, hothers⟩ := hgoal
          refine ⟨hgoal, ?_⟩
          rw [Grants] at hothers ⊢
          rw [GrantsEvery]
          exact ⟨hgrants, hothers⟩

theorem deriveRewrite_proves (hrec : ProvesNodes namespaces orgId tuples target recur)
    {rewrite : Userset} (hfree : rewrite.ExclusionFree) : ∀ walk walk' grant,
      deriveRewrite recur (.plain namespaces orgId tuples) target object relation depth
        rewrite walk =
        some (some grant, walk') →
      ProvesTree namespaces orgId tuples target object relation rewrite grant := by
  induction hfree with
  | this =>
    intro walk walk' grant h
    rw [deriveRewrite] at h
    exact deriveThis_proves hrec h
  | computedUserset rel =>
    intro walk walk' grant h
    rw [deriveRewrite] at h
    cases hcall : recur object rel depth walk with
    | none => simp [hcall] at h
    | some result =>
      obtain ⟨sub, walk₁⟩ := result
      cases sub with
      | none => simp [hcall] at h
      | some sub =>
        have hgrant : grant.path = sub.path := by
          simp only [hcall, Option.bind_eq_bind, Option.bind_some, Option.pure_def,
            Option.map_some, Option.some.injEq, Prod.mk.injEq] at h
          rw [← h.1]
        unfold ProvesTree
        rw [hgrant]
        refine (hrec _ _ _ _ _ _ hcall).imp fun index M hgoal => ?_
        rw [Grants]
        exact hgoal
  | tupleToUserset tupleset computed =>
    intro walk walk' grant h
    rw [deriveRewrite] at h
    exact deriveTupleset_proves hrec (List.Subset.refl _) h
  | union _ ih =>
    intro walk walk' grant h
    rw [deriveRewrite] at h
    exact deriveUnion_proves ih h
  | intersection _ ih =>
    intro walk walk' grant h
    rw [deriveRewrite] at h
    exact (deriveIntersection_proves ih Proves.nil h).imp fun _ _ hgoal => hgoal.2

end Derive

/-! ## Certificates -/

/-- A grant of the walk proves the fact that was asked for. -/
theorem deriveFuel_proves (hfree : (EvaluationSnapshot.plain namespaces orgId tuples).ExclusionFree)
    (target : EntityRef) (fuel : Nat) : ProvesNodes namespaces orgId tuples target
      (deriveFuel (.plain namespaces orgId tuples) target fuel) := by
  induction fuel with
  | zero =>
    intro ref rel d walk grant walk' h
    simp [deriveFuel] at h
  | succ fuel ih =>
    intro ref rel d walk grant walk' h
    rw [deriveFuel] at h
    split_ifs at h with hdeep hseen
    · simp at h
    · simp at h
    · have htree := deriveRewrite_proves ih (hfree ref.type rel) _ _ _ h
      refine ⟨htree.stored, fun listed M hpath hclosed => hclosed ?_⟩
      exact htree.enough listed M hpath hclosed

/-- The loop over the required relations permits on a proved one, with one reason. -/
theorem evaluateRequired_proves
    (hfree : (EvaluationSnapshot.plain namespaces orgId tuples).ExclusionFree)
    (query : AuthorizationQuery) : ∀ (required : List String) (truncated : Bool),
      (evaluateRequired query (.plain namespaces orgId tuples) required truncated).effect =
        .permit →
      ∃ reason relation path,
        (evaluateRequired query (.plain namespaces orgId tuples) required truncated).reasons =
          [reason] ∧
        reason.relation = some relation ∧ reason.path = some path ∧
        Proves namespaces orgId tuples path
          (fun _ M => ⟨query.resource, relation, query.subject⟩ ∈ M) := by
  intro required
  induction required with
  | nil =>
    intro truncated h
    simp [evaluateRequired, defaultDeny, deny] at h
  | cons relation required ih =>
    intro truncated h
    rw [evaluateRequired] at h ⊢
    have hwalk := deriveFuel_derive (.plain namespaces orgId tuples) query.subject query.resource
      relation 0 ⟨[], truncated⟩
    cases hderive : derive (.plain namespaces orgId tuples) query.subject query.resource relation 0
        ⟨[], truncated⟩ with
    | mk grant walk =>
      rw [hderive] at hwalk
      cases grant with
      | none =>
        simp only [hderive] at h ⊢
        exact ih walk.truncated h
      | some grant =>
        refine ⟨_, relation, grant.path, rfl, rfl, rfl, ?_⟩
        exact deriveFuel_proves hfree _ _ _ _ _ _ _ _ hwalk

/-- **A permit's path is a certificate.**  Without exclusions, a permit gives one reason; the keys
of its path are keys of stored tuples, and with those tuples alone, under the same configs, the
subject holds the reported relation on the resource. -/
theorem permit_certified (query : AuthorizationQuery) (namespaces : NamespaceRegistry)
    (orgId : OrgId) (tuples : List RelationTuple)
    (hfree : (EvaluationSnapshot.plain namespaces orgId tuples).ExclusionFree)
    (hpermit : (evaluate query (.plain namespaces orgId tuples)).effect = .permit) :
    ∃ reason relation path,
      (evaluate query (.plain namespaces orgId tuples)).reasons = [reason] ∧
      reason.relation = some relation ∧ reason.path = some path ∧
      (∀ key ∈ path, StoredKey orgId tuples key) ∧
      ∃ M, IsModel (.certificate namespaces orgId tuples path) M ∧
        (⟨query.resource, relation, query.subject⟩ : Fact) ∈ M := by
  have horg : (EvaluationSnapshot.plain namespaces orgId tuples).OfOrg query.orgId := by
    by_contra hno
    obtain ⟨heffect, -⟩ := evaluate_of_mismatch hno
    rw [heffect] at hpermit
    cases hpermit
  rw [evaluate_of_org horg] at hpermit ⊢
  split_ifs at hpermit ⊢ with hnone
  · cases hpermit
  · obtain ⟨reason, relation, path, hreasons, hrelation, hpath, hproves⟩ :=
      evaluateRequired_proves hfree query _ _ hpermit
    have hfree' : (EvaluationSnapshot.certificate namespaces orgId tuples path).ExclusionFree :=
      fun type relation => hfree type relation
    obtain ⟨M, hM, -⟩ := existsUnique_model hfree'
    exact ⟨reason, relation, path, hreasons, hrelation, hpath, hproves.stored, M, hM,
      hproves.enough path M (List.Subset.refl _) hM.closed⟩

/-- A document whose viewers must be readers and reviewers. -/
def reviewedDocument : NamespaceDefinition :=
  ⟨acme, "document", .fromData ⟨["reader", "reviewer", "viewer"], [("view", ["viewer"])],
    [("viewer", .intersection [.computedUserset "reader", .computedUserset "reviewer"])]⟩
    (by decide), ⟨1⟩, 0⟩

/-- Ann is a reader in person and a reviewer through a group; bob is a reader, too. -/
def reviewedRows : List RelationTuple :=
  storedTuples acme
    [(⟨"document", "plan"⟩, "reader", .subject ⟨"user", "bob"⟩),
      (⟨"document", "plan"⟩, "reader", .subject ⟨"user", "ann"⟩),
      (⟨"document", "plan"⟩, "reviewer", .userset ⟨"group", "legal"⟩ "member"),
      (⟨"group", "legal"⟩, "member", .subject ⟨"user", "ann"⟩)]

theorem reviewedDocument_exclusionFree :
    (EvaluationSnapshot.plain (.of [reviewedDocument]) acme reviewedRows).ExclusionFree := by
  intro type relation
  have hget : (NamespaceRegistry.of [reviewedDocument]).rewritesFor type relation =
      if type = "document" ∧ relation = "viewer" then
        .intersection [.computedUserset "reader", .computedUserset "reviewer"]
      else .this := by
    by_cases ht : "document" = type
    · subst ht
      by_cases hr : "viewer" = relation
      · subst hr
        rfl
      · have hother : ¬ ("document" = "document" ∧ relation = "viewer") := fun h => hr h.2.symm
        rw [if_neg hother]
        show (OrderedMap.get? [("viewer", Userset.intersection
          [.computedUserset "reader", .computedUserset "reviewer"])] relation).getD .this = .this
        simp [OrderedMap.get?, hr]
    · have hnone : (NamespaceRegistry.of [reviewedDocument]).get type = none := by
        show (if "document" = type then some reviewedDocument else none) = none
        rw [if_neg ht]
      have hother : ¬ (type = "document" ∧ relation = "viewer") := fun h => ht h.1.symm
      unfold NamespaceRegistry.rewritesFor
      rw [hnone, if_neg hother]
      rfl
  show ((NamespaceRegistry.of [reviewedDocument]).rewritesFor type relation).ExclusionFree
  rw [hget]
  split_ifs
  · refine .intersection fun child hchild => ?_
    rcases List.mem_pair.mp hchild with rfl | rfl
    · exact .computedUserset _
    · exact .computedUserset _
  · exact .this

theorem permit_certified_reviewed : ∃ reason relation path,
    (evaluate annViewsPlan (.plain (.of [reviewedDocument]) acme reviewedRows)).reasons =
      [reason] ∧
    reason.relation = some relation ∧ reason.path = some path ∧
    (∀ key ∈ path, StoredKey acme reviewedRows key) ∧
    ∃ M, IsModel (.certificate (.of [reviewedDocument]) acme reviewedRows path) M ∧
      (⟨annViewsPlan.resource, relation, annViewsPlan.subject⟩ : Fact) ∈ M :=
  permit_certified annViewsPlan _ acme reviewedRows reviewedDocument_exclusionFree
    (by decide +kernel)

end AccessCore
