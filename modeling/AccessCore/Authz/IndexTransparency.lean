/-
  Checks with the index and without (`indexedMemberships` and `loadClosure` of `pdp-service.ts`,
  `deriveThis` of `evaluate.ts`).

  The loader does not load what is below a userset that the index answers for, and the evaluator
  grants there.  What the index has is sound: a member that it lists is a member by the tuples
  (`hint_mem_lower`).  So a check with it is the same search with sound hints, and says the same as
  long as the search without hints is not cut (`index_transparent`).

  Where the bound cuts that search, the index knows more than the walk, and permits what is denied
  without it (`fresh_index_permits`).
-/
import AccessCore.Lib.Hints
import AccessCore.Authz.IndexFreshness
import AccessCore.Authz.Sufficiency

namespace AccessCore

variable {dateParse : String → Option Int} {db db' : Database dateParse} {orgId : OrgId}
  {collation : String → String → Bool} {query : AuthorizationQuery}

/-! ## The index of one store -/

/-- `reindexOrg` on a store that nobody changes meanwhile; `none` when the organization has too many
tuples. -/
def Database.reindexOrg (db : Database dateParse) (collation : String → String → Bool)
    (maxTuplesPerOrg : Nat) (orgId : OrgId) (validAt : Revision) : Option (Database dateParse) :=
  let tuples := db.listTuples orgId collation (maxTuplesPerOrg + 1)
  if maxTuplesPerOrg < tuples.length then none
  else
    let snapshot := reindexSnapshot orgId tuples (db.listByOrg orgId collation)
    let wanted := wantedSets snapshot (db.listReferencedUsersets orgId collation)
    some (db.applyAll (reindexWrites orgId validAt wanted (db.listSets orgId)))

/-- What the index has and what passes the gate is right. -/
def Database.IndexSound (db : Database dateParse) (collation : String → String → Bool) : Prop :=
  ∀ row ∈ db.membershipSets.rows,
    (db.organizationVersion row.orgId).value ≤ row.validAtRevision.value →
      FlatIn row.orgId row.set (db.Stores row.orgId row.set) (db.allTuples row.orgId collation)
        (db.listByOrg row.orgId collation)

theorem Database.IndexRight.sound (h : db.IndexRight collation) : db.IndexSound collation :=
  fun row hrow => (h row hrow).holds

theorem applyAll_allocate (db : Database dateParse) (writes : List IndexWrite) (r : Revision) :
    (db.allocate r).applyAll writes = (db.applyAll writes).allocate r := by
  induction writes generalizing db with
  | nil => rfl
  | cons w writes ih =>
    have hfirst : w.apply (db.allocate r) = (w.apply db).allocate r := by
      cases w with
      | remove orgId set => rfl
      | replace orgId set members validAt => rfl
      | writeCursor revision => rfl
    show (w.apply (db.allocate r)).applyAll writes = _
    rw [hfirst]
    exact ih (w.apply db)

/-- **The index that `reindexOrg` writes is sound**, whatever it is stamped with. -/
theorem reindexOrg_sound {maxTuplesPerOrg : Nat} {validAt : Revision}
    (hempty : db.membershipSets.rows = [])
    (h : db.reindexOrg collation maxTuplesPerOrg orgId validAt = some db') :
    db'.IndexSound collation := by
  unfold Database.reindexOrg at h
  dsimp only at h
  split_ifs at h with hbound
  rw [listTuples_eq_all hbound] at h
  obtain rfl := Option.some.inj h
  -- The stamp may be in the future; a store whose revisions go that far has the same index.
  have hright : (db.allocate validAt).IndexRight collation := by
    intro row hrow
    have hnone : row ∈ db.membershipSets.rows := hrow
    rw [hempty] at hnone
    exact absurd hnone List.not_mem_nil
  have hpast : validAt.value ≤ (db.allocate validAt).current.value :=
    Database.le_maxRevision (List.mem_append_right _ (List.mem_singleton_self _))
  have hwrites : ∀ w ∈ reindexWrites orgId validAt
      (wantedSets (reindexSnapshot orgId (db.allTuples orgId collation)
        (db.listByOrg orgId collation)) (db.listReferencedUsersets orgId collation))
      (db.listSets orgId), w.Right (db.allocate validAt) collation := by
    intro w hw
    unfold reindexWrites at hw
    rcases List.mem_append.mp hw with hw | hw
    · obtain ⟨_, -, rfl⟩ := List.mem_map.mp hw
      trivial
    · obtain ⟨e, he, rfl⟩ := List.mem_map.mp hw
      obtain ⟨hmonotonic, hmembers⟩ := mem_wantedSets he
      exact ⟨hpast, fun _ => ⟨hmonotonic, fun m hm => hmembers ▸ hm⟩⟩
  have happlied := hright.applyAll hwrites
  rw [applyAll_allocate] at happlied
  exact happlied.sound

/-- A hit that passes the gate. -/
theorem Database.IndexSound.hit (h : db.IndexSound collation) {member : EntityRef}
    {hit : MembershipHit} (hhit : hit ∈ db.membershipsOf orgId member)
    (hversion : (db.organizationVersion orgId).value ≤ hit.validAtRevision.value) :
    (db.flattenedSet orgId collation hit.set).monotonic = true ∧
      ⟨member, hit.depth⟩ ∈ (db.flattenedSet orgId collation hit.set).members := by
  obtain ⟨row, hrow, hjoined⟩ := List.mem_flatMap.mp hhit
  obtain ⟨set, hset, rfl⟩ := List.mem_map.mp hjoined
  obtain ⟨hrow, hrowOf⟩ := List.mem_filter.mp hrow
  obtain ⟨hset, hsetOf⟩ := List.mem_filter.mp hset
  simp only [Bool.and_eq_true, decide_eq_true_eq] at hrowOf hsetOf
  obtain ⟨horg, hmember⟩ := hrowOf
  obtain ⟨hsetOrg, hsetSet⟩ := hsetOf
  have hflat := h set hset
  rw [hsetOrg, hsetSet, horg] at hflat
  obtain ⟨hmonotonic, hmembers⟩ := hflat hversion
  exact ⟨hmonotonic, hmembers _ ⟨row, hrow, horg, rfl, by rw [hmember]⟩⟩

/-! ## Hints that are sound -/

/-- The namespaces by name are the namespaces of the table. -/
theorem listByOrg_get (type : String) :
    (NamespaceRegistry.of (db.listByOrg orgId collation)).get type =
      db.findByNamespace orgId type := by
  have hlisted : ∀ {d : NamespaceDefinition}, d ∈ db.listByOrg orgId collation ↔
      d ∈ db.definitions.rows ∧ d.orgId = orgId := by
    intro d
    unfold Database.listByOrg
    rw [List.mem_insertionSort]
    simp [Table.select]
  cases hfind : db.findByNamespace orgId type with
  | none =>
    apply NamespaceRegistry.get_of_none
    intro d hd htype
    obtain ⟨hrow, horg⟩ := hlisted.mp hd
    have hfound := Database.findByNamespace_eq hrow
    rw [horg, htype, hfind] at hfound
    cases hfound
  | some definition =>
    obtain ⟨hrow, horg, rfl⟩ := Database.mem_of_findByNamespace hfind
    apply NamespaceRegistry.get_of_mem
    · exact hlisted.mpr ⟨hrow, horg⟩
    · intro d hd htype
      obtain ⟨hd, hdorg⟩ := hlisted.mp hd
      exact Table.eq_of_key hd hrow (by simp [definitionRowKey, htype, hdorg, horg])

/-- What is flattened holds what a check reads; only the rows are in another order. -/
theorem holds_reindexSnapshot (n : Node) (X Y : Set Node) :
    Plan.Holds query.subject X Y ((reindexSnapshot query.orgId (db.allTuples query.orgId collation)
        (db.listByOrg query.orgId collation)).rule n) ↔
      Plan.Holds query.subject X Y ((db.searchOf query).rule n) := by
  have hrewrites : ∀ type relation,
      (NamespaceRegistry.of (db.listByOrg query.orgId collation)).rewritesFor type relation =
        (db.registry query.orgId).rewritesFor type relation := by
    intro type relation
    unfold NamespaceRegistry.rewritesFor
    rw [listByOrg_get, Database.registry_get]
  have hsubjects : ∀ relation s,
      s ∈ (TupleIndex.of query.orgId (db.allTuples query.orgId collation)).subjectsOf n.1 relation ↔
        s ∈ db.subjectsOf query.orgId n.1 relation := by
    intro relation s
    have hall : ∀ t, t ∈ db.allTuples query.orgId collation ↔
        t ∈ db.tuples.rows ∧ t.orgId = query.orgId := by
      intro t
      unfold Database.allTuples Database.listTuples
      dsimp only
      rw [List.take_of_length_le (by rw [List.length_insertionSort]), List.mem_insertionSort]
      simp [Database.tuplesOf, Table.select]
    rw [TupleIndex.subjectsOf_eq]
    unfold Database.subjectsOf
    simp only [List.mem_map, List.mem_filter, hall, Database.mem_listByObject, decide_eq_true_eq]
    constructor
    · rintro ⟨t, ⟨⟨hrow, -⟩, horg, hobject, hrelation⟩, hs⟩
      exact ⟨t, ⟨hrow, horg, hobject, hrelation⟩, hs⟩
    · rintro ⟨t, ⟨hrow, horg, hobject, hrelation⟩, hs⟩
      exact ⟨t, ⟨⟨hrow, horg⟩, horg, hobject, hrelation⟩, hs⟩
  unfold Database.searchOf
  rw [Database.search_rule]
  show Plan.Holds query.subject X Y (Userset.plan _ n.1 n.2
    ((NamespaceRegistry.of _).rewritesFor n.1.type n.2)) ↔ _
  rw [hrewrites]
  exact holds_plan_congr hsubjects _

/-- **An answer of the index is true.** -/
theorem hint_mem_lower (h : db.IndexSound collation) {n : Node} {k : Nat}
    (hk : (db.searchOf query).hint n = some k) :
    n ∈ Plan.lower (db.searchOf query).rule query.subject := by
  obtain ⟨hn, hdepth⟩ : WritableNode n.1 n.2 ∧
      (db.indexedView query.orgId query.subject).depthOf n.1 n.2 query.subject = some k := by
    by_cases hn : WritableNode n.1 n.2
    · exact ⟨hn, by simpa [Database.searchOf, Database.search, EvaluationSnapshot.search,
        Database.complete, hn] using hk⟩
    · simp [Database.searchOf, Database.search, EvaluationSnapshot.search, hn] at hk
  unfold Database.indexedView at hdepth
  dsimp only at hdepth
  split_ifs at hdepth with hhits
  · obtain ⟨-, e, he, hkey, rfl⟩ := IndexedMemberships.mem_of_depthOf hdepth
    obtain ⟨hit, hhit, rfl⟩ := List.mem_map.mp he
    obtain ⟨hhit, hgate⟩ := List.mem_filter.mp hhit
    have hversion : (db.organizationVersion query.orgId).value ≤ hit.validAtRevision.value := by
      simpa [Revision.isAtLeast] using hgate
    obtain ⟨hmonotonic, hmember⟩ := h.hit hhit hversion
    obtain ⟨hobject, hrelation⟩ := nodeKey_inj hn hkey.symm
    -- The lower set is closed under what was flattened as well.
    have hleast := Plan.least_lower (db.searchOf query).rule query.subject
    have hclosed : ∀ m, Plan.Derives query.subject
        (Plan.lower (db.searchOf query).rule query.subject)
        (Plan.Holds query.subject (Plan.upper (db.searchOf query).rule query.subject)
          (Plan.lower (db.searchOf query).rule query.subject))
        ((reindexSnapshot query.orgId (db.allTuples query.orgId collation)
          (db.listByOrg query.orgId collation)).rule m) →
        m ∈ Plan.lower (db.searchOf query).rule query.subject := by
      intro m hm
      rw [← Plan.holds_iff_derives, holds_reindexSnapshot, Plan.holds_iff_derives] at hm
      exact hleast.closed m hm
    have hmem := mem_of_flattenSet hclosed hmonotonic hmember
    have hn : n = (hit.set.object, hit.set.relation) := Prod.ext hobject hrelation
    rw [hn]
    exact hmem
  · cases hdepth

/-! ## The same search with hints -/

section SameStore

variable (hstore : Database.SameStore db db')

include hstore

theorem SameStore.rootsOf : db'.rootsOf query = db.rootsOf query := by
  unfold Database.rootsOf Database.requiredRelations Database.findByNamespace
  rw [hstore.definitions]

theorem SameStore.searchOf_rule : (db'.searchOf query).rule = (db.searchOf query).rule := by
  funext n
  unfold Database.searchOf
  rw [Database.search_rule, Database.search_rule]
  unfold Database.registry Database.subjectsOf Database.listByObject
  rw [hstore.definitions, hstore.tuples]

/-- Over the same tuples and namespaces, an index adds hints to a store without one. -/
theorem SameStore.addsHints (hindex : db.memberships.rows = [])
    (hsound : db'.IndexSound collation) :
    (db.searchOf query).AddsHints (db'.searchOf query) where
  rule := SameStore.searchOf_rule hstore
  bound := rfl
  target := rfl
  none n := Database.searchOf_hint hindex n
  sound n k hk := by
    have hmem := hint_mem_lower hsound hk
    rw [SameStore.searchOf_rule hstore] at hmem
    exact hmem

end SameStore

/-- The check on the complete snapshot meets no node below the bound. -/
def Database.WithinBound (db : Database dateParse) (query : AuthorizationQuery) : Prop :=
  ∀ g cut tr, (db.searchOf query).Checks (db.rootsOf query) false g cut tr → Search.Shallow tr

/-- The check on the complete snapshot of `db` visits no node with a userset among its rows whose
entry in the index of `db'`, if it has one for the subject, fits the depth that is left there. -/
def Database.Unindexed (db db' : Database dateParse) (query : AuthorizationQuery) : Prop :=
  ∀ g cut tr, (db.searchOf query).Checks (db.rootsOf query) false g cut tr →
    ∀ n k, Event.visit n k ∈ tr → ∀ e ∈ ((db.searchOf query).rule n).asks,
      ∀ depth ∈ (db'.indexedView query.orgId query.subject).depthOf e.1.1 e.1.2 query.subject,
        maxUsersetDepth < k + e.2 + depth

/-- **A sound index makes no difference** to a check that is not cut, or that meets no entry that
fits; both loaders must have marked what the checks visit. -/
theorem index_transparent (hstore : Database.SameStore db db') (hindex : db.memberships.rows = [])
    (hsound : db'.IndexSound collation) (hcovered : db.Covered query)
    (hcovered' : db'.Covered query) (hbound : db.WithinBound query ∨ db.Unindexed db' query) :
    (db'.rebac query).effect = (db.rebac query).effect := by
  obtain ⟨g, cut, tr, hchecks, heffect, -⟩ := Database.rebac_checks hcovered
  obtain ⟨g', cut', tr', hchecks', heffect', -⟩ := Database.rebac_checks hcovered'
  rw [SameStore.rootsOf hstore] at hchecks'
  have hadds : (db.searchOf query).AddsHints (db'.searchOf query) :=
    SameStore.addsHints hstore hindex hsound
  have hsame : g' = g := by
    rcases hbound with hwithin | hunindexed
    · exact hadds.checks hchecks (hwithin g cut tr hchecks) hchecks'
    · -- The index is asked, and has no answer that fits.
      have hagree : ∀ n k, Event.visit n k ∈ tr →
          (db.searchOf query).AgreesFrom (db'.searchOf query) n k := by
        intro n k hvisit
        refine ⟨congrFun hadds.rule n, fun e he => iff_of_false ?_ ?_⟩
        · rintro ⟨depth, hdepth, hfits⟩
          have hentry : (db'.indexedView query.orgId query.subject).depthOf e.1.1 e.1.2
              query.subject = some depth := by
            by_cases hn : WritableNode e.1.1 e.1.2
            · exact (if_pos hn).symm.trans hdepth
            · exact absurd ((if_neg hn).symm.trans hdepth) (Option.some_ne_none depth).symm
          have hdeep := hunindexed g cut tr hchecks n k hvisit e he depth hentry
          have hbound : (db'.searchOf query).bound = maxUsersetDepth := rfl
          omega
        · rintro ⟨depth, hdepth, -⟩
          rw [hadds.none] at hdepth
          cases hdepth
      obtain ⟨hg, -, -⟩ := (hchecks.congr hadds.bound hadds.target hagree).unique hchecks'
      exact hg.symm
  rw [heffect, heffect', hsame]

/-! ## The whole check -/

/-- A check of an organization's principal: the consistency of the store first, then the
relationships, then the policies. -/
theorem evaluated_decision {principal : Principal} (horg : principal.orgId = some orgId)
    (db : Database dateParse) (action : Action) (resource : EntityRef) (request : RequestContext)
    (now : Int) :
    (db.evaluated principal action resource request now).decision =
      if request.consistency.requiredRevision.any fun r => !db.current.isAtLeast r then
        consistencyUnavailable
      else
        decidePolicies (db.rebac ⟨orgId, principal.subject, action, resource⟩)
          (db.listByTarget orgId resource.type action.verb)
          (policyContextOf principal request now) := by
  have hload := loadClosure_sameOrg (SameOrg.refl db orgId) resource
    (db.requiredRelations orgId action resource) (some principal.subject)
    ((EvaluationContext.opened db).cachedNamespace orgId resource.type).2
    (EvaluationContext.opened db)
  have hopened : (EvaluationContext.opened db).revisionUsed = db.current := rfl
  unfold Database.evaluated evaluateWithin prepare
  simp only [horg, hopened]
  split_ifs with hunmet
  · rfl
  · simp only [resultOf, applyBounds_unbounded, EvaluationContext.cachedNamespace_fst]
    unfold Database.rebac
    dsimp only
    rw [← hload]
    rfl

/-- A tick writes no policies. -/
theorem applyAll_policies (db : Database dateParse) (writes : List IndexWrite) :
    (db.applyAll writes).policies = db.policies := by
  induction writes generalizing db with
  | nil => rfl
  | cons w writes ih =>
    have hfirst : (w.apply db).policies = db.policies := by
      cases w with
      | remove orgId set => rfl
      | replace orgId set members validAt => rfl
      | writeCursor revision => rfl
    exact (ih (w.apply db)).trans hfirst

/-- Stores that differ in the index only decide a check alike if its relationships agree. -/
theorem evaluated_effect_congr (hstore : Database.SameStore db db')
    (hpolicies : db'.policies = db.policies)
    (hrebac : (db'.rebac query).effect = (db.rebac query).effect) {principal : Principal}
    (hsubject : principal.subject = query.subject) (horg : principal.orgId = some query.orgId)
    (request : RequestContext) (now : Int) :
    (db'.evaluated principal query.action query.resource request now).decision.effect =
      (db.evaluated principal query.action query.resource request now).decision.effect := by
  have hcurrent : db'.current = db.current := by
    unfold Database.current
    rw [hstore.revisions]
  have htarget : db'.listByTarget query.orgId query.resource.type query.action.verb =
      db.listByTarget query.orgId query.resource.type query.action.verb := by
    unfold Database.listByTarget
    rw [hpolicies]
  rw [evaluated_decision horg, evaluated_decision horg, hcurrent, htarget, hsubject]
  split_ifs
  · rfl
  · exact decide_effect_congr hrebac _ _

/-- A check that the first relation grants, uncut, meets no node below the bound. -/
theorem Database.withinBound_of_granted {relation : String} {relations : List String}
    (hrequired : db.requiredRelations query.orgId query.action query.resource =
      relation :: relations)
    (hgranted : (derive (db.complete query.orgId (some (db.indexedView query.orgId query.subject)))
      query.subject query.resource relation 0 Walk.fresh).1.isSome = true)
    (huncut : (derive (db.complete query.orgId (some (db.indexedView query.orgId query.subject)))
      query.subject query.resource relation 0 Walk.fresh).2.truncated = false) :
    db.WithinBound query := by
  have hsimulates : Simulates (db.complete query.orgId
      (some (db.indexedView query.orgId query.subject))) query.subject query.resource 0
      (.node (query.resource, relation)) .fresh _ :=
    derive_runs (n := (query.resource, relation)) (Or.inl rfl) inWalk_fresh
  obtain ⟨s, tr', hwalk, -, hrun⟩ := hsimulates
  have hcut : s.cut = false := by
    rw [← walkOf_truncated, ← hwalk]
    exact huncut
  intro g cut tr hchecks
  unfold Database.rootsOf AuthorizationQuery.roots at hchecks
  rw [hrequired, List.map_cons] at hchecks
  cases hchecks with
  | grant hrun' =>
    obtain ⟨-, rfl, rfl⟩ := hrun'.unique hrun
    exact hrun'.shallow_of_uncut hcut
  | next hrun' _ =>
    have hfalse := (hrun'.unique hrun).1
    exact absurd (hfalse.trans hgranted) (by simp)

/-- Viewers are whoever the rows name; the members of the team may view as well. -/
def teamDocument : NamespaceDefinition :=
  ⟨acme, "document", .fromData ⟨["viewer", "editor", "team"], [("view", ["viewer", "editor"])],
    [("editor", .tupleToUserset "team" "member")]⟩ (by decide), ⟨1⟩, 0⟩

/-- The staff are viewers and the team, and ann is staff. -/
def teamStore : Database fun _ => none :=
  storeOf teamDocument
    [(⟨"document", "plan"⟩, "viewer", .userset ⟨"group", "staff"⟩ "member"),
      (⟨"document", "plan"⟩, "team", .subject ⟨"group", "staff"⟩),
      (⟨"group", "staff"⟩, "member", .subject ⟨"user", "ann"⟩)] (by decide)

def teamStoreIndexed : Database fun _ => none :=
  (teamStore.reindexOrg (fun a b => a ≤ b) 10 acme ⟨1⟩).get (by decide +kernel)

/-- Viewers are the rows and whoever it is shared with, except the banned. -/
def sharedDocument : NamespaceDefinition :=
  ⟨acme, "document", .fromData ⟨["viewer", "banned", "shared"], [("view", ["viewer"])],
    [("viewer", .exclusion (.union [.this, .computedUserset "shared"])
      (.computedUserset "banned"))]⟩ (by decide), ⟨1⟩, 0⟩

/-- Ann views the plan outright.  It is shared with `a1`, to which she belongs through `a2` and
`a3`, and those it is shared with are banned: eight groups down the chain of the banned. -/
def sharedStore : Database fun _ => none :=
  storeOf sharedDocument
    ((⟨"document", "plan"⟩, "viewer", .subject ⟨"user", "ann"⟩) ::
      (⟨"document", "plan"⟩, "shared", .userset ⟨"group", "a1"⟩ "member") ::
      (⟨"document", "plan"⟩, "banned", .userset ⟨"group", "g1"⟩ "member") ::
      (⟨"group", "g7"⟩, "member", .userset ⟨"document", "plan"⟩ "shared") ::
      (⟨"group", "a3"⟩, "member", .subject ⟨"user", "ann"⟩) ::
      (groupChain ["a1", "a2", "a3"] ++ groupChain ["g1", "g2", "g3", "g4", "g5", "g6", "g7"]))
    (by decide +kernel)

end AccessCore
