/-
  What a permit means while writers and indexers run (`loadClosure`, `prepare` and `evaluateWithin`
  of `authz/application/pdp-service.ts`).

  A check sees what the loader has fetched and what the index says at that moment.  Both may be
  incomplete: the loader stops at the depth bound and at the sets that the index answers for, and
  the index may be behind.  But the loader never has the rows of an object without its namespace
  (`Anchored`), and the index is right where it is used.  So without exclusions all that is missing
  can only deny (`permit_explained`).  With exclusions, a check that is covered is exact up to the
  truncation it reports (`check_exact`).
-/
import AccessCore.Lib.Granted
import AccessCore.Authz.IndexTransparency

namespace AccessCore

variable {dateParse : String → Option Int} {db : Database dateParse} {orgId : OrgId}
  {member : Option EntityRef} {collation : String → String → Bool} {query : AuthorizationQuery}

/-! ## Rows and their namespaces -/

namespace Closure

variable {closure closure' : Closure db orgId member}

/-- The namespace of a type has been read. -/
def Knows (closure : Closure db orgId member) (type : String) : Prop :=
  OrderedMap.get? closure.reached type = db.findByNamespace orgId type

/-- Where there are rows of an object, its namespace has been read. -/
def Anchored (closure : Closure db orgId member) : Prop :=
  ∀ e ∈ closure.rows.entries, ∀ tuple ∈ e.2, closure.Knows tuple.object.type

/-- A stretch of the walk that keeps this. -/
structure Keeps (closure closure' : Closure db orgId member) : Prop where
  knows : ∀ type, closure.Knows type → closure'.Knows type
  anchored : closure.Anchored → closure'.Anchored

theorem Keeps.refl (closure : Closure db orgId member) : Keeps closure closure :=
  ⟨fun _ => id, id⟩

theorem Keeps.trans {closure'' : Closure db orgId member} (h : Keeps closure closure')
    (h' : Keeps closure' closure'') : Keeps closure closure'' :=
  ⟨fun type hknown => h'.knows type (h.knows type hknown),
    fun hanchored => h'.anchored (h.anchored hanchored)⟩

/-- The rows of an object whose namespace has been read. -/
theorem keeps_rowsOf (object : EntityRef) (relation : String) (h : closure.Knows object.type) :
    Keeps closure (closure.rowsOf object relation).2 := by
  refine ⟨fun type hknown => reached_mono (rowsOf_grows object relation) hknown, ?_⟩
  intro hanchored
  unfold rowsOf
  split
  · exact hanchored
  · intro e he tuple htuple
    rcases OrderedMap.mem_set he with hold | rfl
    · exact hanchored e hold tuple htuple
    · have hrows := closure.context.cachedRows_fst orgId (object, relation)
      have htuple' : tuple ∈ (closure.context.cachedRows orgId (object, relation)).1 := htuple
      rw [hrows] at htuple'
      obtain ⟨-, -, hobject, -⟩ := Database.mem_listByObject.mp htuple'
      rw [hobject]
      exact h

theorem namespaceOf_rows (type : String) : (closure.namespaceOf type).2.rows = closure.rows := by
  unfold namespaceOf
  dsimp only
  split <;> rfl

theorem keeps_namespaceOf (type : String) : Keeps closure (closure.namespaceOf type).2 := by
  refine ⟨fun t hknown => reached_mono (namespaceOf_grows type) hknown, ?_⟩
  intro hanchored e he tuple htuple
  rw [namespaceOf_rows] at he
  exact reached_mono (namespaceOf_grows type) (hanchored e he tuple htuple)

/-- `walkFuel` reads the rows of a node first, and its namespace right after. -/
theorem keeps_node (object : EntityRef) (relation : String) :
    Keeps closure ((closure.rowsOf object relation).2.namespaceOf object.type).2 := by
  have hgrows : Grows closure ((closure.rowsOf object relation).2.namespaceOf object.type).2 :=
    (rowsOf_grows object relation).trans (namespaceOf_grows object.type)
  refine ⟨fun type hknown => reached_mono hgrows hknown, ?_⟩
  intro hanchored e he tuple htuple
  rw [namespaceOf_rows] at he
  by_cases htype : tuple.object.type = object.type
  · rw [htype]
    exact namespaceOf_reached object.type
  · -- The row was there before.
    unfold rowsOf at he
    split at he
    · exact reached_mono hgrows (hanchored e he tuple htuple)
    · rcases OrderedMap.mem_set he with hold | rfl
      · exact reached_mono hgrows (hanchored e hold tuple htuple)
      · have hrows := closure.context.cachedRows_fst orgId (object, relation)
        have htuple' : tuple ∈ (closure.context.cachedRows orgId (object, relation)).1 := htuple
        rw [hrows] at htuple'
        obtain ⟨-, -, hobject, -⟩ := Database.mem_listByObject.mp htuple'
        exact absurd (congrArg EntityRef.type hobject) htype

theorem keeps_indexedGrant (set : EntityRef) (relation : String) (depth : Nat) :
    Keeps closure (closure.indexedGrant set relation depth).2 := by
  cases member with
  | none => exact Keeps.refl closure
  | some m =>
    show Keeps closure closure.indexedMemberships.2
    unfold indexedMemberships
    split
    · exact Keeps.refl closure
    · exact ⟨fun _ => id, id⟩

section Walk

variable {recur : EntityRef → String → Nat → Closure db orgId member →
  Option (Closure db orgId member)} {depth : Nat}

/-- The recursive call keeps it. -/
def KeepsNodes (recur : EntityRef → String → Nat → Closure db orgId member →
    Option (Closure db orgId member)) : Prop :=
  ∀ object relation depth closure closure', recur object relation depth closure = some closure' →
    Keeps closure closure'

theorem keeps_walkUsersets (hrec : KeepsNodes recur) {tuples : List RelationTuple}
    (h : walkUsersets recur depth tuples closure = some closure') : Keeps closure closure' := by
  induction tuples generalizing closure with
  | nil =>
    obtain rfl := Option.some.inj h
    exact Keeps.refl closure
  | cons tuple tuples ih =>
    rw [walkUsersets] at h
    cases hs : tuple.subject with
    | subject ref =>
      rw [hs] at h
      exact ih h
    | userset ref relation =>
      rw [hs] at h
      dsimp only at h
      have hasked : Keeps closure (closure.indexedGrant ref relation (depth + 1)).2 :=
        keeps_indexedGrant ref relation (depth + 1)
      split_ifs at h
      · exact hasked.trans (ih h)
      · obtain ⟨closure₁, h₁, h⟩ := Option.bind_eq_some_iff.mp h
        exact hasked.trans ((hrec _ _ _ _ _ h₁).trans (ih h))

theorem keeps_walkTupleset (hrec : KeepsNodes recur) {computed : String}
    {tuples : List RelationTuple}
    (h : walkTupleset recur depth computed tuples closure = some closure') :
    Keeps closure closure' := by
  induction tuples generalizing closure with
  | nil =>
    obtain rfl := Option.some.inj h
    exact Keeps.refl closure
  | cons tuple tuples ih =>
    rw [walkTupleset] at h
    cases hs : tuple.subject with
    | userset ref relation =>
      rw [hs] at h
      exact ih h
    | subject ref =>
      rw [hs] at h
      obtain ⟨closure₁, h₁, h⟩ := Option.bind_eq_some_iff.mp h
      exact (hrec _ _ _ _ _ h₁).trans (ih h)

variable {object : EntityRef} {node : List RelationTuple}

theorem keeps_walkChildren {children : List Userset}
    (hchildren : ∀ c ∈ children, ∀ closure closure' : Closure db orgId member,
      closure.Knows object.type → walkRewrite recur depth object node c closure = some closure' →
        Keeps closure closure')
    (hknown : closure.Knows object.type)
    (h : walkChildren recur depth object node children closure = some closure') :
    Keeps closure closure' := by
  induction children generalizing closure with
  | nil =>
    obtain rfl := Option.some.inj h
    exact Keeps.refl closure
  | cons c cs ih =>
    rw [walkChildren] at h
    obtain ⟨closure₁, h₁, h⟩ := Option.bind_eq_some_iff.mp h
    have hfirst := hchildren c List.mem_cons_self _ _ hknown h₁
    exact hfirst.trans (ih (fun d hd => hchildren d (List.mem_cons_of_mem _ hd))
      (hfirst.knows _ hknown) h)

/-- The walk of one tree, at an object whose namespace has been read. -/
theorem keeps_walkRewrite (hrec : KeepsNodes recur) (rewrite : Userset) :
    ∀ closure closure' : Closure db orgId member, closure.Knows object.type →
      walkRewrite recur depth object node rewrite closure = some closure' →
        Keeps closure closure' := by
  induction rewrite with
  | this =>
    intro closure closure' _ h
    exact keeps_walkUsersets hrec h
  | computedUserset relation =>
    intro closure closure' _ h
    exact hrec _ _ _ _ _ h
  | tupleToUserset tupleset computed =>
    intro closure closure' hknown h
    rw [walkRewrite] at h
    exact (keeps_rowsOf object tupleset hknown).trans (keeps_walkTupleset hrec h)
  | union children ih =>
    intro closure closure' hknown h
    rw [walkRewrite] at h
    exact keeps_walkChildren ih hknown h
  | intersection children ih =>
    intro closure closure' hknown h
    rw [walkRewrite] at h
    exact keeps_walkChildren ih hknown h
  | exclusion base subtract ihb ihs =>
    intro closure closure' hknown h
    rw [walkRewrite] at h
    obtain ⟨closure₁, h₁, h⟩ := Option.bind_eq_some_iff.mp h
    have hbase := ihb _ _ hknown h₁
    exact hbase.trans (ihs _ _ (hbase.knows _ hknown) h)

theorem keeps_walkFuel (fuel : Nat) :
    KeepsNodes (walkFuel fuel : _ → _ → _ → Closure db orgId member →
      Option (Closure db orgId member)) := by
  induction fuel with
  | zero =>
    intro object relation depth closure closure' h
    cases h
  | succ fuel ih =>
    intro object relation depth closure closure' h
    rw [walkFuel] at h
    split_ifs at h
    · obtain rfl := Option.some.inj h
      exact Keeps.refl closure
    · have hnode : Keeps { closure with walked := nodeKey object relation :: closure.walked } _ :=
        keeps_node object relation
      have hwalk := keeps_walkRewrite ih _ _ _ (namespaceOf_reached object.type) h
      exact ⟨fun type hknown => hwalk.knows type (hnode.knows type hknown),
        fun hanchored => hwalk.anchored (hnode.anchored hanchored)⟩

end Walk

end Closure

/-- **The loader has no rows without their namespace.** -/
theorem closureOf_anchored (resource : EntityRef) (relations : List String)
    (context : EvaluationContext db) :
    (closureOf orgId resource relations member context).Anchored := by
  have hloop : ∀ (relations : List String) (closure : Closure db orgId member), closure.Anchored →
      (relations.foldl (fun closure relation => closure.walk resource relation 0)
        closure).Anchored := by
    intro relations
    induction relations with
    | nil => exact fun _ hanchored => hanchored
    | cons relation relations ih =>
      intro closure hanchored
      exact ih _ ((Closure.keeps_walkFuel _ _ _ _ _ _
        (closure.walkFuel_walk resource relation 0)).anchored hanchored)
  apply hloop
  exact (Closure.keeps_namespaceOf resource.type).anchored
    fun e he => absurd he List.not_mem_nil

/-! ## What is loaded is true -/

/-- Trees without exclusions have plans without differences. -/
theorem plan_positive {f : String → List SubjectRef} {object : EntityRef} {relation : String}
    {rewrite : Userset} (h : rewrite.ExclusionFree) :
    (rewrite.plan f object relation).Positive := by
  induction h with
  | this =>
    refine .any fun p hp => ?_
    rcases List.mem_cons.mp hp with rfl | hp
    · exact .leaf _
    · obtain ⟨ref, -, rfl⟩ := List.mem_map.mp hp
      exact .goto _ _ _
  | computedUserset rel => exact .goto _ _ _
  | tupleToUserset tupleset computed =>
    refine .any fun p hp => ?_
    obtain ⟨ref, -, rfl⟩ := List.mem_map.mp hp
    exact .goto _ _ _
  | @union children _ ih =>
    refine .any ?_
    induction children with
    | nil => exact fun p hp => absurd hp List.not_mem_nil
    | cons c cs ihc =>
      intro p hp
      rcases List.mem_cons.mp hp with rfl | hp
      · exact ih c List.mem_cons_self
      · exact ihc (fun d hd => by simp_all) (fun d hd => ih d (List.mem_cons_of_mem _ hd)) p hp
  | @intersection children _ ih =>
    refine .all ?_
    induction children with
    | nil => exact fun p hp => absurd hp List.not_mem_nil
    | cons c cs ihc =>
      intro p hp
      rcases List.mem_cons.mp hp with rfl | hp
      · exact ih c List.mem_cons_self
      · exact ihc (fun d hd => by simp_all) (fun d hd => ih d (List.mem_cons_of_mem _ hd)) p hp

/-- No namespace of the organization uses an exclusion. -/
def Database.ExclusionFree (db : Database dateParse) (orgId : OrgId) : Prop :=
  ∀ definition ∈ db.definitions.rows, definition.orgId = orgId →
    ∀ relation, (definition.config.rewritesFor relation).ExclusionFree

theorem Database.ExclusionFree.rewrites (h : db.ExclusionFree orgId) (type relation : String) :
    ((db.registry orgId).rewritesFor type relation).ExclusionFree := by
  unfold NamespaceRegistry.rewritesFor
  rw [Database.registry_get]
  cases hfind : db.findByNamespace orgId type with
  | none => exact .this
  | some definition =>
    obtain ⟨hrow, horg, -⟩ := Database.mem_of_findByNamespace hfind
    exact h definition hrow horg relation

namespace Closure

variable {closure : Closure db orgId member}

/-- The namespaces that have not been read. -/
theorem snapshot_get_of_unknown {type : String} (h : ¬ closure.Knows type) :
    closure.snapshot.namespaces.get type = none := by
  apply NamespaceRegistry.get_of_none
  intro definition hdefinition htype
  obtain ⟨e, he, rfl⟩ := List.mem_map.mp hdefinition
  have hfound := closure.reachedFound e he
  have hname : e.2.namespace_ = e.1 := (Database.mem_of_findByNamespace hfound).2.2
  apply h
  have hget := OrderedMap.get?_of_mem closure.reachedKeyed he
  rw [← hname, htype] at hget hfound
  exact hget.trans hfound.symm

theorem rewritesFor_exclusionFree (hfree : db.ExclusionFree orgId) (type relation : String) :
    (closure.snapshot.namespaces.rewritesFor type relation).ExclusionFree := by
  by_cases hknown : closure.Knows type
  · have hsame := hfree.rewrites type relation
    unfold NamespaceRegistry.rewritesFor at hsame ⊢
    rw [snapshot_get hknown]
    rw [Database.registry_get] at hsame
    exact hsame
  · unfold NamespaceRegistry.rewritesFor
    rw [snapshot_get_of_unknown hknown]
    exact .this

/-- What is loaded are rows of the store. -/
theorem subjectsOf_subset (object : EntityRef) (relation : String) :
    closure.snapshot.tuples.subjectsOf object relation ⊆
      (db.complete orgId none).tuples.subjectsOf object relation := by
  intro subject hsubject
  have hsnapshot : closure.snapshot.tuples =
      TupleIndex.of orgId (closure.rows.entries.map (·.2)).flatten := rfl
  rw [hsnapshot, TupleIndex.subjectsOf_eq] at hsubject
  obtain ⟨tuple, htuple, rfl⟩ := List.mem_map.mp hsubject
  obtain ⟨htuple, hnode⟩ := List.mem_filter.mp htuple
  obtain ⟨horg, hobject, hrelation⟩ : tuple.orgId = orgId ∧ tuple.object = object ∧
      tuple.relation = relation := by simpa using hnode
  obtain ⟨_, hrows, htuple⟩ := List.mem_flatten.mp htuple
  obtain ⟨e, he, rfl⟩ := List.mem_map.mp hrows
  obtain ⟨q, rfl⟩ := closure.rows.sound e he
  have hrow := (Database.mem_listByObject.mp htuple).1
  rw [Database.complete_subjectsOf]
  have hlisted := Database.mem_listByObject.mpr ⟨hrow, horg, hobject, hrelation⟩
  exact List.mem_map.mpr ⟨tuple, hlisted, rfl⟩

theorem subjectsOf_of_unknown (h : closure.Anchored) {object : EntityRef}
    (hunknown : ¬ closure.Knows object.type) (relation : String) :
    closure.snapshot.tuples.subjectsOf object relation = [] := by
  have hsnapshot : closure.snapshot.tuples =
      TupleIndex.of orgId (closure.rows.entries.map (·.2)).flatten := rfl
  rw [hsnapshot, TupleIndex.subjectsOf_eq, List.map_eq_nil_iff, List.filter_eq_nil_iff]
  intro tuple htuple hnode
  obtain ⟨-, hobject, -⟩ : tuple.orgId = orgId ∧ tuple.object = object ∧
      tuple.relation = relation := by simpa using hnode
  obtain ⟨_, hrows, htuple⟩ := List.mem_flatten.mp htuple
  obtain ⟨e, he, rfl⟩ := List.mem_map.mp hrows
  have hknown := h e he tuple htuple
  rw [hobject] at hknown
  exact hunknown hknown

/-- **What is loaded yields only what the store yields**, without exclusions. -/
theorem yields_subset (h : closure.Anchored) (hfree : db.ExclusionFree orgId) (M : Set Fact) :
    closure.snapshot.yields M M ⊆ (db.complete orgId none).yields M M := by
  rintro ⟨object, relation, subject⟩ hfact
  have hloaded : Grants closure.snapshot.tuples object relation subject M M
      (closure.snapshot.namespaces.rewritesFor object.type relation) := hfact
  show Grants (db.complete orgId none).tuples object relation subject M M
    ((db.registry orgId).rewritesFor object.type relation)
  have hmono : Grants (db.complete orgId none).tuples object relation subject M M
      (closure.snapshot.namespaces.rewritesFor object.type relation) :=
    Grants.mono (rewritesFor_exclusionFree hfree object.type relation)
      (fun o r => subjectsOf_subset o r) (Set.Subset.refl M) hloaded
  by_cases hknown : closure.Knows object.type
  · have hsame : closure.snapshot.namespaces.rewritesFor object.type relation =
        (db.registry orgId).rewritesFor object.type relation := by
      unfold NamespaceRegistry.rewritesFor
      rw [snapshot_get hknown, Database.registry_get]
    rw [← hsame]
    exact hmono
  · -- A namespace that has not been read has no rows either.
    exfalso
    have hdirect : closure.snapshot.namespaces.rewritesFor object.type relation = .this := by
      unfold NamespaceRegistry.rewritesFor
      rw [snapshot_get_of_unknown hknown]
      rfl
    rw [hdirect, Grants, subjectsOf_of_unknown h hknown] at hloaded
    rcases hloaded with hnone | ⟨_, _, hnone, -⟩
    · exact absurd hnone List.not_mem_nil
    · exact absurd hnone List.not_mem_nil

end Closure

/-! ## What the index says is true -/

/-- **An answer of the index** is in every model of the store. -/
theorem hint_mem_model (h : db.IndexSound collation) {M : Set Fact}
    (hM : IsModel (db.complete query.orgId none) M) {n : Node} {k : Nat} (hn : WritableNode n.1 n.2)
    (hdepth : (db.indexedView query.orgId query.subject).depthOf n.1 n.2 query.subject = some k) :
    n ∈ slice query.subject M := by
  unfold Database.indexedView at hdepth
  dsimp only at hdepth
  split_ifs at hdepth
  · obtain ⟨-, e, he, hkey, rfl⟩ := IndexedMemberships.mem_of_depthOf hdepth
    obtain ⟨hit, hhit, rfl⟩ := List.mem_map.mp he
    obtain ⟨hhit, hgate⟩ := List.mem_filter.mp hhit
    have hversion : (db.organizationVersion query.orgId).value ≤ hit.validAtRevision.value := by
      simpa [Revision.isAtLeast] using hgate
    obtain ⟨hmonotonic, hmember⟩ := h.hit hhit hversion
    obtain ⟨hobject, hrelation⟩ := nodeKey_inj hn hkey.symm
    -- The model is closed under what was flattened as well.
    have hclosed : ∀ m, Plan.Derives query.subject (slice query.subject M)
        (Plan.Holds query.subject (slice query.subject M) (slice query.subject M))
        ((reindexSnapshot query.orgId (db.allTuples query.orgId collation)
          (db.listByOrg query.orgId collation)).rule m) → m ∈ slice query.subject M := by
      intro m hm
      rw [← Plan.holds_iff_derives, holds_reindexSnapshot, Plan.holds_iff_derives] at hm
      exact (hM.least_slice query.subject).closed m hm
    have hmem := mem_of_flattenSet hclosed hmonotonic hmember
    have hsame : n = (hit.set.object, hit.set.relation) := Prod.ext hobject hrelation
    rw [hsame]
    exact hmem
  · cases hdepth

/-- A hint of any snapshot that has the view of the subject, or no view. -/
theorem hint_mem_slice (h : db.IndexSound collation) {M : Set Fact}
    (hM : IsModel (db.complete query.orgId none) M) {snapshot : EvaluationSnapshot}
    (hview : snapshot.memberships = none ∨
      snapshot.memberships = some (db.indexedView query.orgId query.subject)) {n : Node} {k : Nat}
    (hk : (snapshot.search query.subject).hint n = some k) : n ∈ slice query.subject M := by
  have hask : (snapshot.search query.subject).hint n =
      if WritableNode n.1 n.2 then
        snapshot.memberships.bind fun view => view.depthOf n.1 n.2 query.subject
      else none := rfl
  rw [hask] at hk
  split_ifs at hk with hn
  rcases hview with hnone | hsome
  · rw [hnone] at hk
    cases hk
  · rw [hsome] at hk
    exact hint_mem_model h hM hn hk

/-! ## Permits -/

/-- A permit of the relationships, whatever the loader and the index have left out. -/
theorem Database.IndexSound.rebac_permit (h : db.IndexSound collation)
    (hfree : db.ExclusionFree query.orgId) {M : Set Fact}
    (hM : IsModel (db.complete query.orgId none) M) (hpermit : (db.rebac query).effect = .permit) :
    ∃ relation ∈ db.requiredRelations query.orgId query.action query.resource,
      ⟨query.resource, relation, query.subject⟩ ∈ M := by
  have hmember : ∀ m, some query.subject = some m → m = query.subject :=
    fun m hm => (Option.some.inj hm).symm
  obtain ⟨-, -, -, -, hget, -⟩ := closureOf_marks hmember
    (db.requiredRelations query.orgId query.action query.resource) (EvaluationContext.opened db)
  obtain ⟨g, cut, tr, hchecks, heffect, -⟩ :=
    evaluate_checks (Closure.snapshot_ofOrg (db.closureFor query))
  have hrequired : AccessCore.requiredRelations query (db.closureFor query).snapshot.namespaces =
      db.requiredRelations query.orgId query.action query.resource :=
    congrArg (Database.requiredOf query.action) hget
  rw [hrequired] at hchecks
  have hg : g = true := by
    have hloaded : (evaluate query (db.closureFor query).snapshot).effect = .permit := hpermit
    rw [heffect] at hloaded
    cases g with
    | true => rfl
    | false => cases hloaded
  have hanchored : (db.closureFor query).Anchored := closureOf_anchored _ _ _
  have hclosed : ∀ n, Plan.Holds query.subject (slice query.subject M) (slice query.subject M)
      ((db.closureFor query).snapshot.rule n) → n ∈ slice query.subject M := by
    intro n hn
    rw [Plan.holds_iff_derives] at hn
    exact hM.closed (Closure.yields_subset hanchored hfree M (mem_yields.mpr hn))
  obtain ⟨n, hn, hmem⟩ := hchecks.granted (X := slice query.subject M)
    (fun n => plan_positive (Closure.rewritesFor_exclusionFree hfree n.1.type n.2)) hclosed
    (fun n k hk => hint_mem_slice h hM (db.closureFor query).viewed hk) hg
  obtain ⟨relation, hrelation, rfl⟩ := List.mem_map.mp hn
  exact ⟨relation, hrelation, hmem⟩

/-- **A permit is explained**, in every state that writers and indexers can reach.  When no
namespace of the organization uses an exclusion, a check that permits was made on a store that has
reached the revision it asks for; no policy forbids; and either the subject has a required relation
by the tuples and the namespaces of that store, at whatever depth, or a policy permits. -/
theorem permit_explained (collation : String → String → Bool)
    (options : Nat → MembershipIndexerOptions) (steps : List IndexerStep) (principal : Principal)
    (orgId : OrgId) (action : Action) (resource : EntityRef) (request : RequestContext) (now : Int)
    (M : Set Fact) (horg : principal.orgId = some orgId)
    (hfree : ((Indexers.initial : Indexers dateParse).run collation options steps).db.ExclusionFree
      orgId)
    (hM : IsModel
      (((Indexers.initial : Indexers dateParse).run collation options steps).db.complete
        orgId none) M)
    (hpermit : (((Indexers.initial : Indexers dateParse).run collation options steps).db.evaluated
      principal action resource request now).decision.effect = .permit) :
    let db := ((Indexers.initial : Indexers dateParse).run collation options steps).db
    let policies := db.listByTarget orgId resource.type action.verb
    (∀ r ∈ request.consistency.requiredRevision, r.value ≤ db.current.value) ∧
      forbidding policies (policyContextOf principal request now) = none ∧
      ((∃ relation ∈ db.requiredRelations orgId action resource,
          ⟨resource, relation, principal.subject⟩ ∈ M) ∨
        ∃ policy, permitting policies (policyContextOf principal request now) = some policy) := by
  intro db policies
  have hsound : db.IndexSound collation :=
    (Indexers.Right.initial.run options steps).index.sound
  rw [evaluated_decision horg] at hpermit
  split_ifs at hpermit with hunmet
  · cases hpermit
  · refine ⟨fun r hr => ?_, ?_⟩
    · by_contra hbehind
      apply hunmet
      rw [Option.mem_def.mp hr]
      simpa [Revision.isAtLeast] using hbehind
    · unfold decidePolicies at hpermit
      have hpolicies : db.listByTarget orgId resource.type action.verb = policies := rfl
      rw [hpolicies] at hpermit
      cases hforbids : forbidding policies (policyContextOf principal request now) with
      | some policy =>
        rw [hforbids] at hpermit
        cases hpermit
      | none =>
        refine ⟨rfl, ?_⟩
        by_cases hrebac : (db.rebac ⟨orgId, principal.subject, action, resource⟩).effect = .permit
        · exact Or.inl (hsound.rebac_permit hfree hM hrebac)
        · right
          rw [hforbids] at hpermit
          dsimp only at hpermit
          rw [if_neg hrebac] at hpermit
          cases hpermits : permitting policies (policyContextOf principal request now) with
          | some policy => exact ⟨policy, rfl⟩
          | none =>
            rw [hpermits] at hpermit
            exact absurd hpermit hrebac

namespace Indexers

/-- Documents are defined, the staff may view the plan, and ann is staff; then a tick indexes
    them. -/
def staffSteps : List IndexerStep :=
  [.write (.defineNamespace ⟨acme, "document", ⟨["viewer"], [("view", ["viewer"])], []⟩⟩ 0) 0,
    viewersWrite ⟨"document", "plan"⟩ "viewer" (.userset ⟨"group", "staff"⟩ "member"),
    viewersWrite ⟨"group", "staff"⟩ "member" (.subject ⟨"user", "ann"⟩), .start 0] ++ wholeTick 0

/-- The store after these steps. -/
def staffRun : Database fun _ => none :=
  ((initial : Indexers fun _ => none).run (fun a b => a ≤ b) (fun _ => ⟨10, 10⟩) staffSteps).db

/-- None of its configs has a rewrite. -/
theorem staffRun_direct : ∀ definition ∈ staffRun.definitions.rows, ∀ relation,
    definition.config.rewritesFor relation = .this := by
  intro definition hdefinition relation
  have hplain : ∀ d ∈ staffRun.definitions.rows, d.config.rewriteMap.isEmpty = true := by
    decide +kernel
  unfold NamespaceConfig.rewritesFor
  rw [List.isEmpty_iff.mp (hplain definition hdefinition)]
  rfl

theorem staffRun_exclusionFree : staffRun.ExclusionFree acme := by
  intro definition hdefinition _ relation
  rw [staffRun_direct definition hdefinition relation]
  exact .this

end Indexers

open Indexers in
theorem permit_explained_ann : ∃ M, IsModel (staffRun.complete acme none) M ∧
    ((∃ relation ∈ staffRun.requiredRelations acme annViewsPlan.action ⟨"document", "plan"⟩,
        ⟨⟨"document", "plan"⟩, relation, ⟨"user", "ann"⟩⟩ ∈ M) ∨
      ∃ policy, permitting (staffRun.listByTarget acme "document" "view")
        (policyContextOf ⟨⟨"user", "ann"⟩, some acme, 1, none⟩ ⟨"10.0.0.1", .atLeast ⟨⟨3⟩⟩⟩ 0) =
          some policy) := by
  have hunique : ∃! M, IsModel (staffRun.complete acme none) M :=
    existsUnique_model staffRun_exclusionFree.rewrites
  obtain ⟨M, hM, -⟩ := hunique
  have hpermit : (staffRun.evaluated ⟨⟨"user", "ann"⟩, some acme, 1, none⟩ annViewsPlan.action
      ⟨"document", "plan"⟩ ⟨"10.0.0.1", .atLeast ⟨⟨3⟩⟩⟩ 0).decision.effect = .permit := by
    decide +kernel
  exact ⟨M, hM, (permit_explained (fun a b => a ≤ b) (fun _ => ⟨10, 10⟩) staffSteps _ acme
    annViewsPlan.action ⟨"document", "plan"⟩ _ 0 M rfl staffRun_exclusionFree hM hpermit).2.2⟩

/-- **A covered check is exact**, in every state that writers and indexers can reach, up to the
truncation it reports: by any model of the tuples and the namespaces of that store, with exclusions
or without. -/
theorem check_exact (collation : String → String → Bool)
    (options : Nat → MembershipIndexerOptions) (steps : List IndexerStep)
    (query : AuthorizationQuery) (M : Set Fact)
    (hcovered : ((Indexers.initial : Indexers dateParse).run collation options steps).db.Covered
      query)
    (hM : IsModel (((Indexers.initial : Indexers dateParse).run collation options
      steps).db.complete query.orgId none) M) :
    let db := ((Indexers.initial : Indexers dateParse).run collation options steps).db
    ((db.rebac query).effect = .permit →
      ∃ relation ∈ db.requiredRelations query.orgId query.action query.resource,
        ⟨query.resource, relation, query.subject⟩ ∈ M) ∧
      ((db.rebac query).effect = .deny → (db.rebac query).cites "walk_truncated" = false →
        ∀ relation ∈ db.requiredRelations query.orgId query.action query.resource,
          ⟨query.resource, relation, query.subject⟩ ∉ M) := by
  intro db
  have hsound : db.IndexSound collation :=
    (Indexers.Right.initial.run options steps).index.sound
  obtain ⟨g, cut, tr, hchecks, heffect, hcites⟩ := Database.rebac_checks hcovered
  have hleast : Plan.Least (db.searchOf query).rule query.subject (slice query.subject M)
      (Plan.Holds query.subject (slice query.subject M) (slice query.subject M)) :=
    hM.least_slice query.subject
  have hhint : ∀ n k, (db.searchOf query).hint n = some k → n ∈ slice query.subject M :=
    fun n k hk => hint_mem_slice hsound hM (Or.inr rfl) hk
  obtain ⟨hgrant, hrefuse⟩ := hchecks.exact hleast hleast hhint
  constructor
  · intro hpermit
    have hg : g = true := by
      rw [heffect] at hpermit
      cases g with
      | true => rfl
      | false => cases hpermit
    obtain ⟨n, hn, hmem⟩ := hgrant hg
    obtain ⟨relation, hrelation, rfl⟩ := List.mem_map.mp hn
    exact ⟨relation, hrelation, hmem⟩
  · intro hdeny huncut relation hrelation
    have hg : g = false := by
      rw [heffect] at hdeny
      cases g with
      | false => rfl
      | true => cases hdeny
    have hcut : cut = false := by rw [← hcites hg, huncut]
    exact hrefuse hg hcut _ (List.mem_map.mpr ⟨relation, hrelation, rfl⟩)

/-! ### A store with an exclusion -/

/-- The rewrites of an organization with one namespace. -/
theorem Database.rewritesFor_single {d : NamespaceDefinition} (hrows : db.definitions.rows = [d])
    (type relation : String) : (db.registry d.orgId).rewritesFor type relation =
      if d.namespace_ = type then d.config.rewritesFor relation else .this := by
  unfold NamespaceRegistry.rewritesFor
  rw [registry_get]
  unfold findByNamespace Table.select
  rw [hrows]
  by_cases htype : d.namespace_ = type
  · simp [htype]
  · simp [htype, directUserset]

namespace Indexers

/-- Whom the rows name and the team may view a document, except the banned; the staff are named and
the team, ann and bea are staff, and bea is banned; then a tick indexes them. -/
def teamSteps : List IndexerStep :=
  [.write (.defineNamespace ⟨acme, "document",
    ⟨["viewer", "team", "banned"], [("view", ["viewer"])],
      [("viewer", .exclusion (.union [.this, .tupleToUserset "team" "member"])
        (.computedUserset "banned"))]⟩⟩ 0) 0,
    viewersWrite ⟨"document", "plan"⟩ "viewer" (.userset ⟨"group", "staff"⟩ "member"),
    viewersWrite ⟨"document", "plan"⟩ "team" (.subject ⟨"group", "staff"⟩),
    viewersWrite ⟨"document", "plan"⟩ "banned" (.subject ⟨"user", "bea"⟩),
    viewersWrite ⟨"group", "staff"⟩ "member" (.subject ⟨"user", "ann"⟩),
    viewersWrite ⟨"group", "staff"⟩ "member" (.subject ⟨"user", "bea"⟩), .start 0] ++ wholeTick 0

/-- The store after these steps. -/
def teamRun : Database fun _ => none :=
  ((initial : Indexers fun _ => none).run (fun a b => a ≤ b) (fun _ => ⟨10, 10⟩) teamSteps).db

theorem teamRun_rewritesFor (type relation : String) :
    (teamRun.registry acme).rewritesFor type relation =
      if "document" = type ∧ "viewer" = relation then
        .exclusion (.union [.this, .tupleToUserset "team" "member"]) (.computedUserset "banned")
      else .this := by
  have hrows : teamRun.definitions.rows.map
      (fun d => (d.orgId, d.namespace_, d.config.rewriteMap)) =
      [(acme, "document", [("viewer", .exclusion (.union [.this, .tupleToUserset "team" "member"])
        (.computedUserset "banned"))])] := rfl
  obtain ⟨d, hd, hfields⟩ := List.map_eq_singleton_iff.mp hrows
  obtain ⟨horg, hfields⟩ := Prod.mk.inj hfields
  obtain ⟨hnamespace, hrewrites⟩ := Prod.mk.inj hfields
  rw [← horg, Database.rewritesFor_single hd, hnamespace, NamespaceConfig.rewritesFor, hrewrites]
  by_cases htype : "document" = type
  · by_cases hrelation : "viewer" = relation
    · rw [if_pos htype, if_pos ⟨htype, hrelation⟩, ← hrelation]
      rfl
    · rw [if_pos htype, if_neg fun h => hrelation h.2]
      simp [OrderedMap.get?, hrelation, directUserset]
  · rw [if_neg htype, if_neg fun h => htype h.1]

/-- The rows of the organization. -/
def teamRows : List (EntityRef × String × SubjectRef) :=
  [(⟨"document", "plan"⟩, "viewer", .userset ⟨"group", "staff"⟩ "member"),
    (⟨"document", "plan"⟩, "team", .subject ⟨"group", "staff"⟩),
    (⟨"document", "plan"⟩, "banned", .subject ⟨"user", "bea"⟩),
    (⟨"group", "staff"⟩, "member", .subject ⟨"user", "ann"⟩),
    (⟨"group", "staff"⟩, "member", .subject ⟨"user", "bea"⟩)]

theorem mem_teamRun_subjectsOf {object : EntityRef} {relation : String} {subject : SubjectRef} :
    subject ∈ (teamRun.complete acme none).tuples.subjectsOf object relation ↔
      (object, relation, subject) ∈ teamRows := by
  have hrows : teamRun.tuples.rows.map (fun t => (t.orgId, t.object, t.relation, t.subject)) =
      teamRows.map (acme, ·) := by decide +kernel
  have hmem : (acme, object, relation, subject) ∈ teamRows.map (acme, ·) ↔
      (object, relation, subject) ∈ teamRows := by
    simp
  rw [Database.complete_subjectsOf, ← hmem, ← hrows]
  simp [Database.listByObject, Table.select, and_assoc]

/-- Ann views the plan, and bea does not, who is banned. -/
def teamFacts : List Fact :=
  [⟨⟨"document", "plan"⟩, "viewer", ⟨"user", "ann"⟩⟩,
    ⟨⟨"document", "plan"⟩, "team", ⟨"group", "staff"⟩⟩,
    ⟨⟨"document", "plan"⟩, "banned", ⟨"user", "bea"⟩⟩,
    ⟨⟨"group", "staff"⟩, "member", ⟨"user", "ann"⟩⟩,
    ⟨⟨"group", "staff"⟩, "member", ⟨"user", "bea"⟩⟩]

theorem teamFacts_isModel : IsModel (teamRun.complete acme none) {f | f ∈ teamFacts} where
  closed := by
    rintro ⟨object, relation, subject⟩ hyields
    have hgrants : Grants (teamRun.complete acme none).tuples object relation subject
        {f | f ∈ teamFacts} {f | f ∈ teamFacts}
          ((teamRun.registry acme).rewritesFor object.type relation) := hyields
    rw [teamRun_rewritesFor] at hgrants
    split_ifs at hgrants with hviewer
    · obtain ⟨hbase, hbanned⟩ := hgrants
      obtain ⟨-, rfl⟩ := hviewer
      -- named or in the team, it is a member of the staff
      have hstaff : object = ⟨"document", "plan"⟩ ∧
          (⟨⟨"group", "staff"⟩, "member", subject⟩ : Fact) ∈ teamFacts := by
        rcases hbase with (hdirect | ⟨ref, rel, huserset, hfact⟩) | ⟨ref, hteam, hfact⟩ | hno
        · have hrow := mem_teamRun_subjectsOf.mp hdirect
          simp [teamRows] at hrow
        · have hrow := mem_teamRun_subjectsOf.mp huserset
          obtain ⟨rfl, rfl, rfl⟩ : object = ⟨"document", "plan"⟩ ∧ ref = ⟨"group", "staff"⟩ ∧
              rel = "member" := by simpa [teamRows] using hrow
          exact ⟨rfl, hfact⟩
        · have hrow := mem_teamRun_subjectsOf.mp hteam
          obtain ⟨rfl, rfl⟩ : object = ⟨"document", "plan"⟩ ∧ ref = ⟨"group", "staff"⟩ := by
            simpa [teamRows] using hrow
          exact ⟨rfl, hfact⟩
        · exact hno.elim
      obtain ⟨rfl, hmember⟩ := hstaff
      obtain rfl | rfl : subject = ⟨"user", "ann"⟩ ∨ subject = ⟨"user", "bea"⟩ := by
        simpa [teamFacts] using hmember
      · exact List.mem_cons_self ..
      · exact absurd (by decide : ⟨⟨"document", "plan"⟩, "banned", ⟨"user", "bea"⟩⟩ ∈ teamFacts)
          hbanned
    · rcases hgrants with hdirect | ⟨ref, rel, huserset, -⟩
      · have hrow := mem_teamRun_subjectsOf.mp hdirect
        simp only [teamRows, List.mem_cons, Prod.mk.injEq, SubjectRef.subject.injEq, reduceCtorEq,
          and_false, false_or, List.not_mem_nil, or_false] at hrow
        rcases hrow with ⟨rfl, rfl, rfl⟩ | ⟨rfl, rfl, rfl⟩ | ⟨rfl, rfl, rfl⟩ | ⟨rfl, rfl, rfl⟩
        all_goals
          show _ ∈ teamFacts
          decide
      · have hrow := mem_teamRun_subjectsOf.mp huserset
        obtain ⟨rfl, rfl, -⟩ : object = ⟨"document", "plan"⟩ ∧ relation = "viewer" ∧
            ref = ⟨"group", "staff"⟩ ∧ rel = "member" := by
          simpa [teamRows] using hrow
        exact absurd ⟨rfl, rfl⟩ hviewer
  least Z hZ := by
    have hdirect : ∀ object relation subject,
        (object, relation, SubjectRef.subject subject) ∈ teamRows →
        ¬ ("document" = object.type ∧ "viewer" = relation) → ⟨object, relation, subject⟩ ∈ Z := by
      intro object relation subject hrow hviewer
      apply hZ
      show Grants _ _ _ _ _ _ ((teamRun.registry acme).rewritesFor object.type relation)
      rw [teamRun_rewritesFor, if_neg hviewer]
      exact Or.inl (mem_teamRun_subjectsOf.mpr hrow)
    have hann := hdirect ⟨"group", "staff"⟩ "member" ⟨"user", "ann"⟩ (by decide) (by decide)
    have hviews : ⟨⟨"document", "plan"⟩, "viewer", ⟨"user", "ann"⟩⟩ ∈ Z := by
      apply hZ
      show Grants _ _ _ _ _ _ ((teamRun.registry acme).rewritesFor "document" "viewer")
      rw [teamRun_rewritesFor, if_pos ⟨rfl, rfl⟩]
      refine ⟨Or.inl (Or.inr ⟨⟨"group", "staff"⟩, "member", ?_, hann⟩), ?_⟩
      · exact mem_teamRun_subjectsOf.mpr (by decide)
      · exact (by decide : ⟨⟨"document", "plan"⟩, "banned", ⟨"user", "ann"⟩⟩ ∉ teamFacts)
    intro f hf
    have hmem : f ∈ teamFacts := hf
    simp only [teamFacts, List.mem_cons, List.not_mem_nil, or_false] at hmem
    rcases hmem with rfl | rfl | rfl | rfl | rfl
    · exact hviews
    · exact hdirect _ _ _ (by decide) (by decide)
    · exact hdirect _ _ _ (by decide) (by decide)
    · exact hann
    · exact hdirect _ _ _ (by decide) (by decide)

end Indexers

/-- `user:bea` asks to view `document:plan`. -/
def beaViewsPlan : AuthorizationQuery :=
  { annViewsPlan with subject := ⟨"user", "bea"⟩ }

open Indexers in
/-- The index answers for the staff; ann is permitted and views the plan, and bea, who is banned, is
denied and does not. -/
theorem check_exact_team : teamRun.memberships.rows.length = 2 ∧
    (∃ relation ∈ teamRun.requiredRelations acme annViewsPlan.action annViewsPlan.resource,
      ⟨annViewsPlan.resource, relation, annViewsPlan.subject⟩ ∈ teamFacts) ∧
    ∀ relation ∈ teamRun.requiredRelations acme beaViewsPlan.action beaViewsPlan.resource,
      ⟨beaViewsPlan.resource, relation, beaViewsPlan.subject⟩ ∉ teamFacts := by
  have hann : teamRun.Covered annViewsPlan :=
    Database.covered_of_closed [(⟨"document", "plan"⟩, "viewer"), (⟨"document", "plan"⟩, "banned"),
      (⟨"group", "staff"⟩, "member")]
      (by decide +kernel) (by decide +kernel) (by decide +kernel) (by decide +kernel)
  have hbea : teamRun.Covered beaViewsPlan :=
    Database.covered_of_closed [(⟨"document", "plan"⟩, "viewer"), (⟨"document", "plan"⟩, "banned"),
      (⟨"group", "staff"⟩, "member")]
      (by decide +kernel) (by decide +kernel) (by decide +kernel) (by decide +kernel)
  refine ⟨by decide +kernel, ?_, ?_⟩
  · exact (check_exact (fun a b => a ≤ b) (fun _ => ⟨10, 10⟩) teamSteps annViewsPlan _ hann
      teamFacts_isModel).1 (by decide +kernel)
  · exact (check_exact (fun a b => a ≤ b) (fun _ => ⟨10, 10⟩) teamSteps beaViewsPlan _ hbea
      teamFacts_isModel).2 (by decide +kernel) (by decide +kernel)

end AccessCore
