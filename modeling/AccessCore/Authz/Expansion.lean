/-
  Who holds a relation (`expand` of `authz/application/pdp-service.ts`).

  `expand` loads the closure of one relation for nobody in particular, so without the index, and
  collects the members it finds there.

  Without exclusions it never names a subject that is not a member, however little was loaded
  (`expand_explained`).  Where configs only unite, loading, checking and collecting are the same
  walk (`Lib.Unions`): the loader has fetched all that the expansion reads, so it is the expansion
  of the whole store, and whoever it names may act (`expand_served`).  A check of an action with one
  relation is then covered in every case, so it is exact up to the truncation it reports
  (`check_exact_united`).
-/
import AccessCore.Lib.Unions
import AccessCore.Authz.FailClosed
import AccessCore.Authz.Flattening

namespace AccessCore

open Search (Tours Lists after)

variable {dateParse : String → Option Int} {db : Database dateParse} {orgId : OrgId}
  {member : Option EntityRef} {query : AuthorizationQuery} {resource subject : EntityRef}
  {relation : String}

/-- What `expand` loads. -/
def Database.expansionOf (db : Database dateParse) (orgId : OrgId) (resource : EntityRef)
    (relation : String) : EvaluationSnapshot :=
  (loadClosure orgId resource [relation] none (EvaluationContext.opened db)).1

/-- `PdpService.expand`. -/
def Database.expand (db : Database dateParse) (principal : Principal) (resource : EntityRef)
    (relation : String) : List EntityRef :=
  match principal.orgId with
  | none => []
  | some orgId => AccessCore.expand orgId resource relation (db.expansionOf orgId resource relation)

/-! ## Configs that only unite -/

/-- Trees that only unite have plans that only unite. -/
theorem plan_unites {f : String → List SubjectRef} {object : EntityRef} {rewrite : Userset}
    (h : rewrite.UnionOnly) : (rewrite.plan f object relation).Unites := by
  induction h with
  | this =>
    refine .any fun p hp => ?_
    rcases List.mem_cons.mp hp with rfl | hp
    · exact .leaf _
    · obtain ⟨n, -, rfl⟩ := List.mem_map.mp hp
      exact .goto _ _ _
  | computedUserset rel => exact .goto _ _ _
  | tupleToUserset tupleset computed =>
    refine .any fun p hp => ?_
    obtain ⟨ref, -, rfl⟩ := List.mem_map.mp hp
    exact .goto _ _ _
  | union _ ih =>
    refine .any fun p hp => ?_
    obtain ⟨child, hchild, rfl⟩ := mem_plans.mp hp
    exact ih child hchild

/-- What has been loaded has the rewrites of the store, or none. -/
theorem Closure.snapshot_unionOnly {closure : Closure db orgId member}
    (hunion : (db.registry orgId).UnionOnly) : closure.snapshot.namespaces.UnionOnly := by
  intro type relation
  by_cases hknown : closure.Knows type
  · have hsame := hunion type relation
    unfold NamespaceRegistry.rewritesFor at hsame ⊢
    rw [Closure.snapshot_get hknown]
    rw [Database.registry_get] at hsame
    exact hsame
  · unfold NamespaceRegistry.rewritesFor
    rw [Closure.snapshot_get_of_unknown hknown]
    exact .this

/-! ## Naming nobody else -/

/-- **An expansion names members only.**  When no namespace of the organization uses an exclusion,
whoever `expand` names holds the relation by the tuples and the namespaces of the store, at whatever
depth, and is named once. -/
theorem expand_explained (db : Database dateParse) (principal : Principal) (orgId : OrgId)
    (resource : EntityRef) (relation : String) (M : Set Fact) (horg : principal.orgId = some orgId)
    (hfree : db.ExclusionFree orgId) (hM : IsModel (db.complete orgId none) M) :
    (db.expand principal resource relation).Nodup ∧
      ∀ subject ∈ db.expand principal resource relation, ⟨resource, relation, subject⟩ ∈ M := by
  let closure := closureOf orgId resource [relation] none (EvaluationContext.opened db)
  have hexpand : db.expand principal resource relation =
      AccessCore.expand closure.snapshot.tuples.orgId resource relation closure.snapshot := by
    unfold Database.expand
    rw [horg]
    rfl
  rw [hexpand]
  constructor
  · have hnodup := (flattenSet_shallowest resource relation closure.snapshot).2
    unfold AccessCore.expand flatten
    rw [if_neg (by simp)]
    exact hnodup
  · intro subject hsubject
    obtain ⟨ms, V, ex, hgathers, hmem⟩ := mem_expand closure.snapshot resource subject relation
    have hnone : ex = false := hgathers.entersNone
      (fun n => plan_positive (Closure.rewritesFor_exclusionFree hfree n.1.type n.2)) trivial
    have hanchored : closure.Anchored := closureOf_anchored _ _ _
    have hclosed : ∀ n, Plan.Derives subject (slice subject M)
        (Plan.Holds subject (slice subject M) (slice subject M)) (closure.snapshot.rule n) →
        n ∈ slice subject M :=
      fun n hn => hM.closed (Closure.yields_subset hanchored hfree M (mem_yields.mpr hn))
    exact hgathers.sound hclosed hnone (hmem.mp hsubject)

open Indexers in
theorem expand_explained_ann : ∃ M, IsModel (staffRun.complete acme none) M ∧
    ∀ subject ∈ staffRun.expand ⟨⟨"user", "ann"⟩, some acme, 1, none⟩ ⟨"document", "plan"⟩ "viewer",
      ⟨⟨"document", "plan"⟩, "viewer", subject⟩ ∈ M := by
  have hunique : ∃! M, IsModel (staffRun.complete acme none) M :=
    existsUnique_model staffRun_exclusionFree.rewrites
  obtain ⟨M, hM, -⟩ := hunique
  exact ⟨M, hM, (expand_explained staffRun ⟨⟨"user", "ann"⟩, some acme, 1, none⟩ acme
    ⟨"document", "plan"⟩ "viewer" M rfl staffRun_exclusionFree hM).2⟩

/-! ## Naming everybody -/

/-- What is loaded for an expansion is the tour of the store: both enter the same nodes, at which
the loaded snapshot has the plans of the store. -/
theorem expansionOf_tours (hunion : (db.registry orgId).UnionOnly) (resource : EntityRef)
    (relation : String) : ∃ es,
    Tours (db.complete orgId none).rule maxUsersetDepth 0 (.node (resource, relation)) [] es ∧
      ∀ e ∈ es, (db.expansionOf orgId resource relation).rule e.1 =
        (db.complete orgId none).rule e.1 := by
  have hnobody : ∀ m, (none : Option EntityRef) = some m → m = resource := by
    intro m hm
    cases hm
  obtain ⟨V, hmarks, -, hagree, -, -⟩ :=
    closureOf_marks hnobody [relation] (EvaluationContext.opened db)
  have hnone : ∀ n, (db.search orgId none resource).hint n = none := by
    intro n
    show (if WritableNode n.1 n.2 then none else none) = none
    split_ifs <;> rfl
  cases hmarks with
  | cons hmarks hrest =>
    cases hrest
    obtain ⟨es, htour, rfl⟩ :=
      hmarks.tours (fun n => plan_unites (hunion n.1.type n.2)) hnone trivial
    refine ⟨es, htour, fun e he => ?_⟩
    have hentered : e.1 ∈ after [] es := Search.mem_after.mpr (Or.inl ⟨e.2, he⟩)
    exact (hagree e.1 hentered).1

/-- The expansion collects what the whole store collects. -/
theorem mem_collect_expansionOf (hunion : (db.registry orgId).UnionOnly) (m : FlatMember) :
    m ∈ (collectMembers (db.expansionOf orgId resource relation) resource relation 0
        ⟨[], false⟩).1 ↔
      m ∈ (collectMembers (db.complete orgId none) resource relation 0 ⟨[], false⟩).1 := by
  obtain ⟨es, htour, hsame⟩ := expansionOf_tours hunion resource relation
  have hloadedUnion : (db.expansionOf orgId resource relation).namespaces.UnionOnly :=
    Closure.snapshot_unionOnly hunion
  have hstoreUnion : (db.complete orgId none).namespaces.UnionOnly := hunion
  obtain ⟨es₁, htour₁, hloaded⟩ := collectMembers_tours hloadedUnion resource relation
  obtain ⟨es₂, htour₂, hcomplete⟩ := collectMembers_tours hstoreUnion resource relation
  obtain rfl := htour.unique htour₂
  obtain rfl := (htour.congr fun e he => (hsame e he).symm).unique htour₁
  rw [hloaded m, hcomplete m]
  refine exists_congr fun n => and_congr_right fun hn => ?_
  rw [hsame (n, m.depth) hn]

/-- Who is listed by an expansion, and that nobody is listed twice. -/
theorem mem_expand_collected {snapshot : EvaluationSnapshot} :
    (expand snapshot.tuples.orgId resource relation snapshot).Nodup ∧
      ∀ ref, ref ∈ expand snapshot.tuples.orgId resource relation snapshot ↔
        ∃ k, ⟨ref, k⟩ ∈ (collectMembers snapshot resource relation 0 ⟨[], false⟩).1 := by
  obtain ⟨hmembers, honce⟩ := flattenSet_shallowest resource relation snapshot
  have hexpand : expand snapshot.tuples.orgId resource relation snapshot =
      (flattenSet resource relation snapshot).members.map (·.ref) := by
    unfold expand flatten
    rw [if_neg (by simp)]
  rw [hexpand]
  refine ⟨honce, fun ref => ?_⟩
  constructor
  · intro href
    obtain ⟨m, hm, rfl⟩ := List.mem_map.mp href
    exact ⟨m.depth, ((hmembers m).mp hm).1⟩
  · rintro ⟨k, hk⟩
    classical
    -- What is collected at some depth is kept at its smallest one.
    have hdepths : ∃ j, j ∈ depthsOf
        (collectMembers snapshot resource relation 0 ⟨[], false⟩).1 ref := ⟨k, hk⟩
    have hleast : IsLeast (depthsOf
        (collectMembers snapshot resource relation 0 ⟨[], false⟩).1 ref) (Nat.find hdepths) :=
      ⟨Nat.find_spec hdepths, fun j hj => Nat.find_min' hdepths hj⟩
    exact List.mem_map.mpr ⟨⟨ref, Nat.find hdepths⟩, (hmembers _).mpr hleast, rfl⟩

/-! ## Checks of one relation -/

/-- **One relation is always covered.**  Where configs only unite, all that a check of one relation
visits has been marked by the loader. -/
theorem Database.covered_of_unites (hunion : (db.registry query.orgId).UnionOnly)
    (hone : (db.requiredRelations query.orgId query.action query.resource).length ≤ 1) :
    db.Covered query := by
  intro g cut tr V hchecks hmarks
  have hunites : ∀ n, ((db.searchOf query).rule n).Unites :=
    fun n => plan_unites (hunion n.1.type n.2)
  have hlength : (db.rootsOf query).length ≤ 1 := by
    unfold Database.rootsOf AuthorizationQuery.roots
    rw [List.length_map]
    exact hone
  cases hroots : db.rootsOf query with
  | nil =>
    rw [hroots] at hchecks
    cases hchecks
    exact fun n k hn => absurd hn List.not_mem_nil
  | cons n ns =>
    rw [hroots, List.length_cons] at hlength
    obtain rfl : ns = [] := List.length_eq_zero_iff.mp (by omega)
    rw [hroots] at hchecks hmarks
    exact hchecks.marked hunites hmarks

/-- **A check of one relation is exact**, in every state that writers and indexers can reach.  Where
the configs of the organization only unite and the action has one relation, a check permits only
members, and it refuses members only when it reports a truncated walk; whatever the index holds. -/
theorem check_exact_united (collation : String → String → Bool)
    (options : Nat → MembershipIndexerOptions) (steps : List IndexerStep)
    (query : AuthorizationQuery) (relation : String) (M : Set Fact)
    (hunion : (((Indexers.initial : Indexers dateParse).run collation options
      steps).db.registry query.orgId).UnionOnly)
    (hone : ((Indexers.initial : Indexers dateParse).run collation options
      steps).db.requiredRelations query.orgId query.action query.resource = [relation])
    (hM : IsModel (((Indexers.initial : Indexers dateParse).run collation options
      steps).db.complete query.orgId none) M) :
    let db := ((Indexers.initial : Indexers dateParse).run collation options steps).db
    ((db.rebac query).effect = .permit → ⟨query.resource, relation, query.subject⟩ ∈ M) ∧
      (⟨query.resource, relation, query.subject⟩ ∈ M → (db.rebac query).effect = .permit ∨
        (db.rebac query).cites "walk_truncated" = true) := by
  intro db
  have hsound : db.IndexSound collation := (Indexers.Right.initial.run options steps).index.sound
  have hcovered : db.Covered query :=
    Database.covered_of_unites hunion (le_of_eq (congrArg List.length hone))
  have hroots : db.rootsOf query = [(query.resource, relation)] := by
    unfold Database.rootsOf
    rw [hone]
    rfl
  obtain ⟨g, cut, tr, hchecks, heffect, hcites⟩ := Database.rebac_checks hcovered
  have hleast : Plan.Least (db.searchOf query).rule query.subject (slice query.subject M)
      (Plan.Holds query.subject (slice query.subject M) (slice query.subject M)) :=
    hM.least_slice query.subject
  have hhint : ∀ n k, (db.searchOf query).hint n = some k → n ∈ slice query.subject M :=
    fun n k hk => hint_mem_slice hsound hM (Or.inr rfl) hk
  obtain ⟨hgrant, hrefuse⟩ := hchecks.exact hleast hleast hhint
  rw [hroots] at hgrant hrefuse
  cases g with
  | true =>
    obtain ⟨n, hn, hmem⟩ := hgrant rfl
    obtain rfl := List.mem_singleton.mp hn
    exact ⟨fun _ => hmem, fun _ => Or.inl heffect⟩
  | false =>
    refine ⟨fun hpermit => ?_, fun hmem => Or.inr ?_⟩
    · rw [heffect] at hpermit
      cases hpermit
    · rw [hcites rfl]
      by_contra huncut
      have hcut : cut = false := by simpa using huncut
      exact hrefuse rfl hcut _ (List.mem_singleton.mpr rfl) hmem

theorem Indexers.staffRun_unionOnly : (staffRun.registry acme).UnionOnly := by
  intro type relation
  unfold NamespaceRegistry.rewritesFor
  rw [Database.registry_get]
  cases hfind : staffRun.findByNamespace acme type with
  | none => exact .this
  | some definition =>
    obtain ⟨hrow, -, -⟩ := Database.mem_of_findByNamespace hfind
    show (definition.config.rewritesFor relation).UnionOnly
    rw [staffRun_direct definition hrow relation]
    exact .this

open Indexers in
theorem check_exact_united_ann : ∃ M, IsModel (staffRun.complete acme none) M ∧
    ⟨⟨"document", "plan"⟩, "viewer", ⟨"user", "ann"⟩⟩ ∈ M := by
  have hunique : ∃! M, IsModel (staffRun.complete acme none) M :=
    existsUnique_model staffRun_exclusionFree.rewrites
  obtain ⟨M, hM, -⟩ := hunique
  exact ⟨M, hM, (check_exact_united (fun a b => a ≤ b) (fun _ => ⟨10, 10⟩) staffSteps annViewsPlan
    "viewer" M staffRun_unionOnly (by decide +kernel) hM).1 (by decide +kernel)⟩

/-! ## What is named may act -/

/-- **Expanding serves the whole store.**  Where the configs of the organization only unite,
`expand` names whom the expansion of the complete store names, each once.  Whoever it names the
relationship check permits for every action that has this relation only, and a subject that it
permits and that the index has no row for is named. -/
theorem expand_served (db : Database dateParse) (principal : Principal) (orgId : OrgId)
    (resource : EntityRef) (relation : String) (horg : principal.orgId = some orgId)
    (hunion : (db.registry orgId).UnionOnly) :
    (db.expand principal resource relation).Perm
      (AccessCore.expand orgId resource relation (db.complete orgId none)) ∧
    (db.expand principal resource relation).Nodup ∧
    ∀ subject action, db.requiredRelations orgId action resource = [relation] →
      (subject ∈ db.expand principal resource relation →
        (db.rebac ⟨orgId, subject, action, resource⟩).effect = .permit) ∧
      (db.membershipsOf orgId subject = [] →
        (db.rebac ⟨orgId, subject, action, resource⟩).effect = .permit →
        subject ∈ db.expand principal resource relation) := by
  have hexpand : db.expand principal resource relation =
      AccessCore.expand orgId resource relation (db.expansionOf orgId resource relation) := by
    unfold Database.expand
    rw [horg]
  rw [hexpand]
  have hloaded : (AccessCore.expand orgId resource relation
      (db.expansionOf orgId resource relation)).Nodup ∧ _ := mem_expand_collected
  have hstored : (AccessCore.expand orgId resource relation (db.complete orgId none)).Nodup ∧ _ :=
    mem_expand_collected
  have hsame : ∀ ref, ref ∈ AccessCore.expand orgId resource relation
      (db.expansionOf orgId resource relation) ↔
      ref ∈ AccessCore.expand orgId resource relation (db.complete orgId none) := by
    intro ref
    refine (hloaded.2 ref).trans (Iff.trans ?_ (hstored.2 ref).symm)
    exact exists_congr fun k => mem_collect_expansionOf hunion ⟨ref, k⟩
  refine ⟨(List.perm_ext_iff_of_nodup hloaded.1 hstored.1).mpr hsame, hloaded.1,
    fun subject action hone => ?_⟩
  -- The check is one run over the plans of the store.
  let query : AuthorizationQuery := ⟨orgId, subject, action, resource⟩
  have hcovered : db.Covered query :=
    Database.covered_of_unites hunion (le_of_eq (congrArg List.length hone))
  have hroots : db.rootsOf query = [(resource, relation)] :=
    congrArg query.roots hone
  obtain ⟨g, cut, tr, hchecks, heffect, -⟩ := Database.rebac_checks hcovered
  rw [hroots] at hchecks
  obtain ⟨s, hrun⟩ := hchecks.run
  have hpermit : (db.rebac query).effect = .permit ↔ g = true := by
    rw [heffect]
    cases g <;> simp
  rw [hpermit, hsame subject]
  constructor
  · intro hlisted
    by_contra hrefused
    have hg : g = false := by simpa using hrefused
    obtain ⟨es, htour, -, -, hmiss⟩ :=
      hrun.refusal (fun n => plan_unites (hunion n.1.type n.2)) hg trivial
    have hstoreUnion : (db.complete orgId none).namespaces.UnionOnly := hunion
    obtain ⟨es', htour', hcollected⟩ := collectMembers_tours hstoreUnion resource relation
    obtain rfl := htour.unique htour'
    obtain ⟨k, hk⟩ := (hstored.2 subject).mp hlisted
    obtain ⟨n, hn, hlists⟩ := (hcollected ⟨subject, k⟩).mp hk
    exact hmiss (n, k) hn hlists
  · intro hunindexed hg
    have hnone : ∀ n, (db.searchOf query).hint n = none := by
      intro n
      show (if WritableNode n.1 n.2 then
        (db.indexedView orgId subject).depthOf n.1 n.2 subject else none) = none
      unfold Database.indexedView
      rw [hunindexed]
      split_ifs <;> rfl
    obtain ⟨ms, V, ex, hgathers, hmem⟩ :=
      mem_expand (db.complete orgId none) resource subject relation
    exact hmem.mpr ((hrun.gathers hnone hgathers).1 hg)

open Indexers in
/-- Before the tick the index is empty: ann may view the plan, so she is named. -/
theorem expand_served_ann :
    let db := ((initial : Indexers fun _ => none).run (fun a b => a ≤ b) (fun _ => ⟨10, 10⟩)
      (staffSteps.take 3)).db
    (⟨"user", "ann"⟩ : EntityRef) ∈
      db.expand ⟨⟨"user", "bob"⟩, some acme, 1, none⟩ ⟨"document", "plan"⟩ "viewer" := by
  intro db
  have hunion : (db.registry acme).UnionOnly := staffRun_unionOnly
  exact ((expand_served db ⟨⟨"user", "bob"⟩, some acme, 1, none⟩ acme
    ⟨"document", "plan"⟩ "viewer" rfl
    hunion).2.2 ⟨"user", "ann"⟩ annViewsPlan.action (by decide +kernel)).2 (by decide +kernel)
    (by decide +kernel)

end AccessCore
