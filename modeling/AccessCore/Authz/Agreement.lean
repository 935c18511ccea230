/-
  Check and expand on one snapshot without an index.

  The two walks visit the same nodes in the same order up to the check's first grant
  (`Search.Runs.gathers`), so a permitted subject is always listed by `expand`.  The converse needs
  a condition.  The check gives up a composite whose operand was cut by the depth bound; the expand
  walk does not notice the cut and keeps what the operand collected.  `check_expand_agree` says that
  the two agree whenever no operand of the check was cut, and `check_expand_disagree` is a snapshot
  on which they do not: a subject reached through a short branch of an exclusion's base, next to a
  branch that is too long.
-/
import AccessCore.Authz.Semantics

namespace AccessCore

open Search (Within WithinEvery withinEvery_iff CallWithin)

/-! ## Flattening keeps every collected reference -/

/-- Entries keyed by the text of their own, writable reference. -/
def KeyedByRef (byRef : OrderedMap String FlatMember) : Prop :=
  ∀ e ∈ byRef, e.1 = formatEntityRef e.2.ref ∧ assertWritableEntityRef e.2.ref = .ok ()

theorem keepShallowest_keyed {byRef : OrderedMap String FlatMember} {m : FlatMember}
    (hkeyed : KeyedByRef byRef) (hm : assertWritableEntityRef m.ref = .ok ()) :
    KeyedByRef (keepShallowest byRef m) ∧
      insert m.ref (refsOf (byRef.map (·.2))) ⊆ refsOf ((keepShallowest byRef m).map (·.2)) := by
  -- whatever is set under the key of `m` carries the reference of `m`
  have hset : ∀ value : FlatMember, value.ref = m.ref →
      KeyedByRef (OrderedMap.set byRef (formatEntityRef m.ref) value) ∧
        insert m.ref (refsOf (byRef.map (·.2))) ⊆
          refsOf ((OrderedMap.set byRef (formatEntityRef m.ref) value).map (·.2)) := by
    intro value hvalue
    have hself := OrderedMap.mem_set_self byRef (formatEntityRef m.ref) value
    refine ⟨fun e he => ?_, fun ref href => ?_⟩
    · rcases OrderedMap.mem_set he with he | rfl
      · exact hkeyed e he
      · exact ⟨by rw [hvalue], by rw [hvalue]; exact hm⟩
    · have hnew : m.ref ∈ refsOf ((OrderedMap.set byRef (formatEntityRef m.ref) value).map (·.2)) :=
        ⟨value, List.mem_map.mpr ⟨_, hself, rfl⟩, hvalue⟩
      rcases href with rfl | ⟨x, hx, rfl⟩
      · exact hnew
      · obtain ⟨e, he, rfl⟩ := List.mem_map.mp hx
        by_cases hk : e.1 = formatEntityRef m.ref
        · have href : m.ref = e.2.ref := formatEntityRef_inj hm (hk.symm.trans (hkeyed e he).1)
          rw [← href]
          exact hnew
        · exact ⟨e.2, List.mem_map.mpr ⟨e, OrderedMap.mem_set_of_mem he hk, rfl⟩, rfl⟩
  simp only [keepShallowest]
  cases hseen : OrderedMap.get? byRef (formatEntityRef m.ref) with
  | none => exact hset m rfl
  | some seen =>
    have hmem := OrderedMap.mem_of_get? hseen
    have href : m.ref = seen.ref := formatEntityRef_inj hm (hkeyed _ hmem).1
    by_cases hlt : m.depth < seen.depth
    · simp only [hlt, if_true]
      exact hset ⟨seen.ref, m.depth⟩ href.symm
    · simp only [hlt, if_false]
      refine ⟨hkeyed, Set.insert_subset ?_ (Set.Subset.refl _)⟩
      exact ⟨seen, List.mem_map.mpr ⟨_, hmem, rfl⟩, href.symm⟩

theorem refsOf_subset_fold {members : List FlatMember}
    (hw : ∀ m ∈ members, assertWritableEntityRef m.ref = .ok ()) :
    ∀ {byRef : OrderedMap String FlatMember}, KeyedByRef byRef →
      refsOf (byRef.map (·.2)) ∪ refsOf members ⊆
        refsOf ((members.foldl keepShallowest byRef).map (·.2)) := by
  induction members with
  | nil => intro byRef _; simp
  | cons m ms ih =>
    intro byRef hkeyed
    obtain ⟨hkeyed', hsub⟩ := keepShallowest_keyed hkeyed (hw m (List.mem_cons_self ..))
    have hrest := ih (fun x hx => hw x (List.mem_cons_of_mem _ hx)) hkeyed'
    rw [refsOf_cons, Set.union_insert, ← Set.insert_union]
    exact Set.Subset.trans (Set.union_subset_union_left _ hsub) hrest

/-! ## Collected references are writable -/

section Within

variable {snapshot : EvaluationSnapshot} {object : EntityRef} {relation : String}

theorem plans_within {φ : EntityRef → Prop} {subjectsOf : String → List SubjectRef}
    {children : List Userset} (h : ∀ c ∈ children, Within φ (c.plan subjectsOf object relation)) :
    WithinEvery φ (Userset.plans subjectsOf object relation children) := by
  induction children with
  | nil => trivial
  | cons c cs ih =>
    exact ⟨h c (List.mem_cons_self ..), ih fun d hd => h d (List.mem_cons_of_mem _ hd)⟩

/-- A validated tree lists only the subjects of stored tuples, and none of its operand lists is
    empty. -/
theorem plan_within {relations : List String} (rewrite : Userset) :
    ∀ {level : Nat}, validateUserset relations rewrite level = .ok () →
      Within (fun ref => assertWritableEntityRef ref = .ok ())
        (rewrite.plan (snapshot.tuples.subjectsOf object) object relation) := by
  have goto_within : ∀ ns : List (Plan Node EntityRef), (∀ p ∈ ns, ∃ n w h, p = .goto n w h) →
      ∀ p ∈ ns, Within (fun ref => assertWritableEntityRef ref = .ok ()) p := by
    intro ns hns p hp
    obtain ⟨n, w, h, rfl⟩ := hns p hp
    trivial
  induction rewrite with
  | this =>
    intro level _
    rw [Userset.plan]
    refine withinEvery_iff.mpr fun p hp => ?_
    rcases List.mem_cons.mp hp with rfl | hp
    · intro ref href
      exact writableSubject_ref (TupleIndex.writable_of_mem (mem_directRefs.mp href))
    · refine goto_within _ (fun q hq => ?_) p hp
      obtain ⟨n, _, rfl⟩ := List.mem_map.mp hq
      exact ⟨_, _, _, rfl⟩
  | computedUserset rel => intro level _; trivial
  | tupleToUserset tupleset computed =>
    intro level _
    rw [Userset.plan]
    refine withinEvery_iff.mpr (goto_within _ fun q hq => ?_)
    obtain ⟨n, _, rfl⟩ := List.mem_map.mp hq
    exact ⟨_, _, _, rfl⟩
  | union children ih =>
    intro level hv
    rw [Userset.plan]
    have hvalid := (validateUserset_ok hv).2.2
    exact plans_within fun c hc => ih c hc (hvalid c hc)
  | intersection children ih =>
    intro level hv
    rw [Userset.plan]
    obtain ⟨hne, hvalid⟩ := (validateUserset_ok hv).2
    refine ⟨?_, plans_within fun c hc => ih c hc (hvalid c hc)⟩
    cases children with
    | nil => exact absurd rfl hne
    | cons c cs => simp [Userset.plans]
  | exclusion base subtract ihb ihs =>
    intro level hv
    obtain ⟨hvb, hvs⟩ := (validateUserset_ok hv).2
    exact ⟨ihb hvb, ihs hvs⟩

theorem rule_within (n : Node) :
    Within (fun ref => assertWritableEntityRef ref = .ok ()) (snapshot.rule n) := by
  obtain ⟨relations, hv⟩ := snapshot.namespaces.rewritesFor_valid n.1.type n.2
  exact plan_within _ hv

end Within

/-- `expand` lists exactly what the collecting search collects. -/
theorem mem_expand (snapshot : EvaluationSnapshot) (resource subject : EntityRef)
    (relation : String) : ∃ ms V ex,
      Search.Gathers snapshot.rule maxUsersetDepth 0 (.node (resource, relation)) [] ms V ex ∧
      (subject ∈ expand snapshot.tuples.orgId resource relation snapshot ↔ subject ∈ ms) := by
  have hcol : Collects snapshot resource 0 (.node (resource, relation)) [] false
      (collectMembers snapshot resource relation 0 ⟨[], false⟩) :=
    collectMembers_gathers (n := (resource, relation)) (Or.inl rfl) noneVisited false
  have hexpand : subject ∈ expand snapshot.tuples.orgId resource relation snapshot ↔
      subject ∈ refsOf (flattenSet resource relation snapshot).members := by
    unfold expand flatten
    rw [if_neg (by simp), List.mem_map]
    rfl
  rw [hexpand]
  simp only [flattenSet]
  generalize collectMembers snapshot resource relation 0 ⟨[], false⟩ = collected at hcol
  obtain ⟨V, ex, _, _, hg⟩ := hcol
  refine ⟨refsOf collected.1, V, ex, hg, fun h => ?_, fun h => ?_⟩
  · rcases refsOf_keepShallowest h with h | h
    · simp at h
    · exact h
  · have hw : ∀ m ∈ collected.1, assertWritableEntityRef m.ref = .ok () :=
      fun m hm => hg.within rule_within trivial m.ref ⟨m, hm, rfl⟩
    exact refsOf_subset_fold hw (fun e he => absurd he List.not_mem_nil) (Or.inr h)

/-! ## Agreement -/

/-- No operand of an intersection or exclusion was cut by the depth bound while checking `relation`
    on the query's resource. -/
def OperandsUncut (query : AuthorizationQuery) (snapshot : EvaluationSnapshot)
    (relation : String) : Prop :=
  ∀ g s tr, (snapshot.search query.subject).Runs 0 (.node (query.resource, relation)) .fresh g s
    tr → Event.cutOperand ∉ tr

/-- A check that was not truncated at all had no operand cut. -/
theorem operandsUncut_of_untruncated {query : AuthorizationQuery} {snapshot : EvaluationSnapshot}
    {relation : String}
    (h : (derive snapshot query.subject query.resource relation 0 Walk.fresh).2.truncated = false) :
    OperandsUncut query snapshot relation := by
  intro g s tr hrun
  have hsim : Simulates snapshot query.subject query.resource 0 (.node (query.resource, relation))
      .fresh (derive snapshot query.subject query.resource relation 0 Walk.fresh) :=
    derive_runs (n := (query.resource, relation)) (Or.inl rfl) inWalk_fresh
  obtain ⟨s', tr', hwalk, _, hrun'⟩ := hsim
  obtain ⟨_, rfl, rfl⟩ := hrun.unique hrun'
  apply hrun.no_cutOperand
  rw [← walkOf_truncated, ← hwalk, h]

/-- **Check and expand.**  A permitted subject is always listed, and where no operand of the check
    was cut the two agree. -/
theorem check_expand_agree (query : AuthorizationQuery) (snapshot : EvaluationSnapshot)
    (relation : String) (horg : snapshot.OfOrg query.orgId) (hindex : snapshot.memberships = none)
    (honly : requiredRelations query snapshot.namespaces = [relation]) :
    ((evaluate query snapshot).effect = .permit →
      query.subject ∈ expand query.orgId query.resource relation snapshot) ∧
    (OperandsUncut query snapshot relation →
      ((evaluate query snapshot).effect = .permit ↔
        query.subject ∈ expand query.orgId query.resource relation snapshot)) := by
  obtain ⟨g, cut, tr, hchk, heff, _⟩ := evaluate_checks horg
  obtain ⟨ms, V, ex, hg, hexpand⟩ := mem_expand snapshot query.resource query.subject relation
  rw [horg.1] at hexpand
  have hnone : ∀ n, (snapshot.search query.subject).hint n = none := by
    intro n
    simp [EvaluationSnapshot.search, hindex]
  have hpermit : (evaluate query snapshot).effect = .permit ↔ g = true := by
    rw [heff]
    cases g <;> simp
  -- the only root is the relation itself
  obtain ⟨s, tr', hrun⟩ : ∃ s tr', (snapshot.search query.subject).Runs 0
      (.node (query.resource, relation)) .fresh g s tr' := by
    rw [honly] at hchk
    cases hchk with
    | grant h => exact ⟨_, _, h⟩
    | next h hs => cases hs; exact ⟨_, _, h⟩
  obtain ⟨hgrant, hrefuse⟩ := hrun.gathers hnone hg
  rw [hpermit, hexpand]
  refine ⟨hgrant, fun huncut => ⟨hgrant, fun hms => ?_⟩⟩
  by_contra hne
  have hfalse : g = false := by simpa using hne
  exact (hrefuse hfalse).2 (huncut _ _ _ hrun) hms

/-- `viewer` is whoever the rows name, except the banned. -/
def moderatedDocument : NamespaceDefinition :=
  ⟨acme, "document", .fromData ⟨["viewer", "banned"], [("view", ["viewer"])],
    [("viewer", .exclusion .this (.computedUserset "banned"))]⟩ (by decide), ⟨1⟩, 0⟩

/-- The staff are viewers, and ann is staff. -/
def staffOnly : EvaluationSnapshot where
  namespaces := .of [moderatedDocument]
  tuples := .of acme (storedTuples acme
    [(⟨"document", "plan"⟩, "viewer", .userset ⟨"group", "staff"⟩ "member"),
      (⟨"group", "staff"⟩, "member", .subject ⟨"user", "ann"⟩)])

theorem check_expand_agree_staff : (evaluate annViewsPlan staffOnly).effect = .permit ↔
    annViewsPlan.subject ∈ expand annViewsPlan.orgId annViewsPlan.resource "viewer" staffOnly := by
  have horg : staffOnly.OfOrg annViewsPlan.orgId := by
    refine ⟨rfl, fun d hd => ?_⟩
    obtain rfl : d = moderatedDocument := List.mem_singleton.mp hd
    rfl
  have huncut : OperandsUncut annViewsPlan staffOnly "viewer" :=
    operandsUncut_of_untruncated (by decide)
  exact (check_expand_agree annViewsPlan staffOnly "viewer" horg rfl (by decide)).2 huncut

/-! ## Where they disagree -/

/-- The members of one group are those of the next, along a list of groups. -/
def groupChain : List String → List (EntityRef × String × SubjectRef)
  | g :: h :: groups =>
    (⟨"group", g⟩, "member", .userset ⟨"group", h⟩ "member") :: groupChain (h :: groups)
  | _ => []

/-- Viewers are a group whose chain of groups is one hop too long, and the staff; ann is staff. -/
def longAndShort : EvaluationSnapshot where
  namespaces := .of [moderatedDocument]
  tuples := .of acme (storedTuples acme
    ((⟨"document", "plan"⟩, "viewer", .userset ⟨"group", "g1"⟩ "member") ::
      (⟨"document", "plan"⟩, "viewer", .userset ⟨"group", "staff"⟩ "member") ::
      (⟨"group", "staff"⟩, "member", .subject ⟨"user", "ann"⟩) ::
      groupChain ["g1", "g2", "g3", "g4", "g5", "g6", "g7", "g8", "g9", "g10", "g11"]))

theorem check_expand_disagree :
    requiredRelations annViewsPlan longAndShort.namespaces = ["viewer"] ∧
    longAndShort.OfOrg annViewsPlan.orgId ∧ longAndShort.memberships = none ∧
    ¬ ((evaluate annViewsPlan longAndShort).effect = .permit ↔
      annViewsPlan.subject ∈ expand annViewsPlan.orgId annViewsPlan.resource "viewer"
        longAndShort) := by
  refine ⟨by decide, ⟨rfl, ?_⟩, rfl, ?_⟩
  · intro d hd
    obtain rfl : d = moderatedDocument := List.mem_singleton.mp hd
    rfl
  · have hdeny : (evaluate annViewsPlan longAndShort).effect = .deny := by decide
    have hlisted : annViewsPlan.subject ∈ expand annViewsPlan.orgId annViewsPlan.resource "viewer"
        longAndShort := by decide
    intro h
    have hpermit := h.mpr hlisted
    rw [hdeny] at hpermit
    exact absurd hpermit (by decide)

end AccessCore
