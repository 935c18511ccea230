/-
  What a snapshot means, and that evaluation is exact up to the truncation it reports.

  A fact says that a subject holds a relation on an object.  `Grants` reads one rewrite tree over
  the tuples, its positive references in one set of facts and every subtracted tree wholly in
  another.  `IsModel` says that a set of facts is the least one closed under all rewrite trees
  when the subtracted trees are read in the set itself; without exclusions there is exactly one.

  The bridge to the plan graph is the slice of a set of facts at one subject, a set of nodes:
  a model's slice is least with respect to itself (`IsModel.least_slice`), so the exactness of the
  search applies with the slice as both its lower and its upper set.
-/
import AccessCore.Authz.Rules

namespace AccessCore

/-! ## Facts -/

/-- A subject holds a relation on an object. -/
structure Fact where
  object : EntityRef
  relation : String
  subject : EntityRef
deriving DecidableEq, Repr

mutual
/-- `subject` belongs to a rewrite tree at `object#relation`: positive references are read in `X`,
    a subtracted tree wholly in `M`. -/
def Grants (tuples : TupleIndex) (object : EntityRef) (relation : String) (subject : EntityRef)
    (M X : Set Fact) : Userset → Prop
  | .this => .subject subject ∈ tuples.subjectsOf object relation ∨
      ∃ ref rel, .userset ref rel ∈ tuples.subjectsOf object relation ∧ ⟨ref, rel, subject⟩ ∈ X
  | .computedUserset rel => ⟨object, rel, subject⟩ ∈ X
  | .tupleToUserset tupleset computed =>
      ∃ ref, .subject ref ∈ tuples.subjectsOf object tupleset ∧ ⟨ref, computed, subject⟩ ∈ X
  | .union children => GrantsSome tuples object relation subject M X children
  | .intersection children => GrantsEvery tuples object relation subject M X children
  | .exclusion base subtract => Grants tuples object relation subject M X base ∧
      ¬ Grants tuples object relation subject M M subtract
/-- Some tree of the list grants. -/
def GrantsSome (tuples : TupleIndex) (object : EntityRef) (relation : String)
    (subject : EntityRef) (M X : Set Fact) : List Userset → Prop
  | [] => False
  | child :: children => Grants tuples object relation subject M X child ∨
      GrantsSome tuples object relation subject M X children
/-- Every tree of the list grants. -/
def GrantsEvery (tuples : TupleIndex) (object : EntityRef) (relation : String)
    (subject : EntityRef) (M X : Set Fact) : List Userset → Prop
  | [] => True
  | child :: children => Grants tuples object relation subject M X child ∧
      GrantsEvery tuples object relation subject M X children
end

/-- The facts one round of the tuples and rewrite trees yields. -/
def EvaluationSnapshot.yields (snapshot : EvaluationSnapshot) (M X : Set Fact) : Set Fact :=
  {f | Grants snapshot.tuples f.object f.relation f.subject M X
    (snapshot.namespaces.rewritesFor f.object.type f.relation)}

/-- `M` is the least set closed under the tuples and rewrite trees when every subtracted tree is
    read in `M` itself. -/
structure IsModel (snapshot : EvaluationSnapshot) (M : Set Fact) : Prop where
  closed : snapshot.yields M M ⊆ M
  least : ∀ Z : Set Fact, snapshot.yields M Z ⊆ Z → M ⊆ Z

/-! ## The slice at one subject -/

/-- The nodes on which `subject` holds the relation. -/
def slice (subject : EntityRef) (X : Set Fact) : Set Node := {n | ⟨n.1, n.2, subject⟩ ∈ X}

@[simp] theorem mem_slice {subject : EntityRef} {X : Set Fact} {n : Node} :
    n ∈ slice subject X ↔ (⟨n.1, n.2, subject⟩ : Fact) ∈ X := Iff.rfl

section Slice

variable {tuples : TupleIndex} {object : EntityRef} {relation : String} {subject : EntityRef}

theorem derives_this {X : Set Fact} {sub : Plan Node EntityRef → Prop} :
    Plan.Derives subject (slice subject X) sub
      (Userset.this.plan (tuples.subjectsOf object) object relation) ↔
    .subject subject ∈ tuples.subjectsOf object relation ∨
      ∃ ref rel, .userset ref rel ∈ tuples.subjectsOf object relation ∧
        (⟨ref, rel, subject⟩ : Fact) ∈ X := by
  rw [Userset.plan, Plan.derives_any]
  constructor
  · rintro ⟨p, hp, hd⟩
    rcases List.mem_cons.mp hp with rfl | hp
    · exact Or.inl (mem_directRefs.mp (Plan.derives_leaf.mp hd))
    · obtain ⟨n, hn, rfl⟩ := List.mem_map.mp hp
      exact Or.inr ⟨n.1, n.2, mem_usersetNodes.mp hn, by simpa using hd⟩
  · rintro (h | ⟨ref, rel, h, hX⟩)
    · exact ⟨_, List.mem_cons_self .., Plan.derives_leaf.mpr (mem_directRefs.mpr h)⟩
    · refine ⟨.goto (ref, rel) 1 true, List.mem_cons_of_mem _ (List.mem_map.mpr ?_), ?_⟩
      · exact ⟨(ref, rel), mem_usersetNodes.mpr h, rfl⟩
      · simpa using hX

theorem derives_tupleset {X : Set Fact} {sub : Plan Node EntityRef → Prop}
    {tupleset computed : String} :
    Plan.Derives subject (slice subject X) sub
      ((Userset.tupleToUserset tupleset computed).plan (tuples.subjectsOf object) object
        relation) ↔
    ∃ ref, .subject ref ∈ tuples.subjectsOf object tupleset ∧
      (⟨ref, computed, subject⟩ : Fact) ∈ X := by
  rw [Userset.plan, Plan.derives_any]
  constructor
  · rintro ⟨p, hp, hd⟩
    obtain ⟨ref, href, rfl⟩ := List.mem_map.mp hp
    exact ⟨ref, mem_directRefs.mp href, by simpa using hd⟩
  · rintro ⟨ref, h, hX⟩
    exact ⟨.goto (ref, computed) 1 false, List.mem_map.mpr ⟨ref, mem_directRefs.mpr h, rfl⟩,
      by simpa using hX⟩

/-- Reading a tree over facts is reading its plan over the slice. -/
theorem grants_iff {M : Set Fact} (rewrite : Userset) : ∀ {X : Set Fact},
    Grants tuples object relation subject M X rewrite ↔
      Plan.Derives subject (slice subject X)
        (Plan.Holds subject (slice subject M) (slice subject M))
        (rewrite.plan (tuples.subjectsOf object) object relation) := by
  induction rewrite with
  | this => intro X; rw [derives_this, Grants]
  | computedUserset rel => intro X; rw [Grants, Userset.plan, Plan.derives_goto]; rfl
  | tupleToUserset tupleset computed => intro X; rw [derives_tupleset, Grants]
  | union children ih =>
    intro X
    rw [Grants, Userset.plan, Plan.derives_any]
    induction children with
    | nil => simp [GrantsSome, Userset.plans]
    | cons c cs ihc =>
      rw [GrantsSome, Userset.plans, List.exists_mem_cons_iff, ih c (List.mem_cons_self ..),
        ihc fun d hd => ih d (List.mem_cons_of_mem _ hd)]
  | intersection children ih =>
    intro X
    rw [Grants, Userset.plan, Plan.derives_all]
    induction children with
    | nil => simp [GrantsEvery, Userset.plans]
    | cons c cs ihc =>
      rw [GrantsEvery, Userset.plans, List.forall_mem_cons, ih c (List.mem_cons_self ..),
        ihc fun d hd => ih d (List.mem_cons_of_mem _ hd)]
  | exclusion base subtract ihb ihs =>
    intro X
    rw [Grants, Userset.plan, Plan.derives_diff, ihb, ihs, ← Plan.holds_iff_derives]

end Slice

theorem mem_yields {snapshot : EvaluationSnapshot} {M X : Set Fact} {n : Node}
    {subject : EntityRef} : (⟨n.1, n.2, subject⟩ : Fact) ∈ snapshot.yields M X ↔
      Plan.Derives subject (slice subject X)
        (Plan.Holds subject (slice subject M) (slice subject M)) (snapshot.rule n) :=
  grants_iff _

/-- A model's slice is the least set of nodes with respect to itself. -/
theorem IsModel.least_slice {snapshot : EvaluationSnapshot} {M : Set Fact}
    (h : IsModel snapshot M) (subject : EntityRef) :
    Plan.Least snapshot.rule subject (slice subject M)
      (Plan.Holds subject (slice subject M) (slice subject M)) where
  closed n hn := h.closed (mem_yields.mpr hn)
  least Z hZ := by
    -- widen `Z` to a set of facts that leaves every other subject free
    let Z' : Set Fact := {f | f.subject = subject → (f.object, f.relation) ∈ Z}
    have hslice : slice subject Z' = Z := by
      ext n
      exact ⟨fun hn => hn rfl, fun hn _ => hn⟩
    have hM : M ⊆ Z' := by
      refine h.least Z' fun f hf => ?_
      rintro rfl
      have hd := (mem_yields (n := (f.object, f.relation))).mp hf
      rw [hslice] at hd
      exact hZ _ hd
    exact fun n hn => hM hn rfl

/-! ## Trees without exclusions -/

/-- No exclusion anywhere in the tree. -/
inductive Userset.ExclusionFree : Userset → Prop where
  | this : ExclusionFree .this
  | computedUserset (relation) : ExclusionFree (.computedUserset relation)
  | tupleToUserset (tupleset computed) : ExclusionFree (.tupleToUserset tupleset computed)
  | union {children} (h : ∀ c ∈ children, ExclusionFree c) : ExclusionFree (.union children)
  | intersection {children} (h : ∀ c ∈ children, ExclusionFree c) :
      ExclusionFree (.intersection children)

section ExclusionFree

variable {tuples tuples' : TupleIndex} {object : EntityRef} {relation : String}
  {subject : EntityRef}

/-- Without exclusions, more tuples and more facts grant more, and what is subtracted does not
    matter. -/
theorem Grants.mono {rewrite : Userset} (hfree : rewrite.ExclusionFree)
    (htuples : ∀ o r, tuples.subjectsOf o r ⊆ tuples'.subjectsOf o r) {M M' X X' : Set Fact}
    (hX : X ⊆ X') : Grants tuples object relation subject M X rewrite →
      Grants tuples' object relation subject M' X' rewrite := by
  induction hfree with
  | this =>
    rw [Grants, Grants]
    rintro (h | ⟨ref, rel, h, hx⟩)
    · exact Or.inl (htuples _ _ h)
    · exact Or.inr ⟨ref, rel, htuples _ _ h, hX hx⟩
  | computedUserset rel => rw [Grants, Grants]; exact fun h => hX h
  | tupleToUserset tupleset computed =>
    rw [Grants, Grants]
    rintro ⟨ref, h, hx⟩
    exact ⟨ref, htuples _ _ h, hX hx⟩
  | @union children _ ih =>
    rw [Grants, Grants]
    induction children with
    | nil => exact id
    | cons c cs ihc =>
      rw [GrantsSome, GrantsSome]
      exact Or.imp (ih c (List.mem_cons_self ..)) (ihc (fun d hd => by simp_all)
        fun d hd => ih d (List.mem_cons_of_mem _ hd))
  | @intersection children _ ih =>
    rw [Grants, Grants]
    induction children with
    | nil => exact id
    | cons c cs ihc =>
      rw [GrantsEvery, GrantsEvery]
      exact And.imp (ih c (List.mem_cons_self ..)) (ihc (fun d hd => by simp_all)
        fun d hd => ih d (List.mem_cons_of_mem _ hd))

end ExclusionFree

/-- No config of the snapshot uses an exclusion. -/
def EvaluationSnapshot.ExclusionFree (snapshot : EvaluationSnapshot) : Prop :=
  ∀ type relation, (snapshot.namespaces.rewritesFor type relation).ExclusionFree

theorem yields_mono {snapshot : EvaluationSnapshot} (hfree : snapshot.ExclusionFree)
    (M M' : Set Fact) {X X' : Set Fact} (hX : X ⊆ X') :
    snapshot.yields M X ⊆ snapshot.yields M' X' :=
  fun _ hf => Grants.mono (hfree _ _) (fun _ _ => List.Subset.refl _) hX hf

/-- Without exclusions there is exactly one model. -/
theorem existsUnique_model {snapshot : EvaluationSnapshot} (hfree : snapshot.ExclusionFree) :
    ∃! M, IsModel snapshot M := by
  let step : Set Fact →o Set Fact :=
    ⟨snapshot.yields ∅, fun _ _ h => yields_mono hfree ∅ ∅ h⟩
  have hfix : snapshot.yields ∅ step.lfp = step.lfp := OrderHom.map_lfp step
  refine ⟨step.lfp, ⟨fun f hf => ?_, fun Z hZ => ?_⟩, fun M hM => ?_⟩
  · rw [← hfix]
    exact yields_mono hfree _ _ (Set.Subset.refl _) hf
  · exact OrderHom.lfp_le step ((yields_mono hfree _ _ (Set.Subset.refl _)).trans hZ)
  · refine Set.Subset.antisymm (hM.least _ ?_) (OrderHom.lfp_le step ?_)
    · exact (yields_mono hfree _ _ (Set.Subset.refl _)).trans hfix.subset
    · exact (yields_mono hfree _ _ (Set.Subset.refl _)).trans hM.closed

/-! ## Indexed memberships -/

/-- The references a flattened set keeps are among those collected. -/
theorem refsOf_keepShallowest {members : List FlatMember} :
    ∀ {byRef : OrderedMap String FlatMember},
      refsOf ((members.foldl keepShallowest byRef).map (·.2)) ⊆
        refsOf (byRef.map (·.2)) ∪ refsOf members := by
  induction members with
  | nil => intro byRef ref h; exact Or.inl h
  | cons m ms ih =>
    intro byRef ref h
    have hkeep : refsOf ((keepShallowest byRef m).map (·.2)) ⊆
        insert m.ref (refsOf (byRef.map (·.2))) := by
      rintro ref ⟨x, hx, rfl⟩
      obtain ⟨e, he, rfl⟩ := List.mem_map.mp hx
      have hold : ∀ {e : String × FlatMember}, e ∈ byRef →
          e.2.ref ∈ insert m.ref (refsOf (byRef.map (·.2))) :=
        fun he => Or.inr ⟨_, List.mem_map.mpr ⟨_, he, rfl⟩, rfl⟩
      simp only [keepShallowest] at he
      split at he
      · rcases OrderedMap.mem_set he with he | rfl
        · exact hold he
        · exact Or.inl rfl
      · next seen hseen =>
        split_ifs at he with hlt
        · rcases OrderedMap.mem_set he with he | rfl
          · exact hold he
          · have hmem := hold (OrderedMap.mem_of_get? hseen)
            exact hmem
        · exact hold he
    rw [refsOf_cons]
    rcases ih h with h | h
    · rcases hkeep h with rfl | h
      · exact Or.inr (Set.mem_insert ..)
      · exact Or.inl h
    · exact Or.inr (Set.mem_insert_of_mem _ h)

/-- The collecting search behind a flattened set. -/
theorem flattenSet_gathers (object : EntityRef) (relation : String)
    (snapshot : EvaluationSnapshot) : ∃ ms V ex,
      Search.Gathers snapshot.rule maxUsersetDepth 0 (.node (object, relation)) [] ms V ex ∧
      (flattenSet object relation snapshot).monotonic = !ex ∧
      refsOf (flattenSet object relation snapshot).members ⊆ ms := by
  have hcol : Collects snapshot object 0 (.node (object, relation)) [] false
      (collectMembers snapshot object relation 0 ⟨[], false⟩) :=
    collectMembers_gathers (n := (object, relation)) (Or.inl rfl) noneVisited false
  simp only [flattenSet]
  generalize collectMembers snapshot object relation 0 ⟨[], false⟩ = collected at hcol
  obtain ⟨V, ex, hst, _, hg⟩ := hcol
  refine ⟨refsOf collected.1, V, ex, hg, by simp [hst, collectOf], fun ref h => ?_⟩
  rcases refsOf_keepShallowest h with h | h
  · simp at h
  · exact h

/-- What the memberships of a snapshot may be: nothing, or entries that flattening reports for the
    member on the snapshot itself, for sets it calls monotonic. -/
def Flattened (snapshot : EvaluationSnapshot) (member : EntityRef) : Prop :=
  snapshot.memberships = none ∨ ∃ entries : List IndexedMembership,
    snapshot.memberships = some (.of member entries) ∧ ∀ e ∈ entries,
      (flattenSet e.object e.relation snapshot).monotonic = true ∧
      ⟨member, e.depth⟩ ∈ (flattenSet e.object e.relation snapshot).members

/-- A member of a monotonic flattened set holds the set's relation in every closed set of nodes. -/
theorem mem_of_flattenSet {snapshot : EvaluationSnapshot} {object member : EntityRef}
    {relation : String} {depth : Nat} {X : Set Node} {sub : Plan Node EntityRef → Prop}
    (hclosed : ∀ n, Plan.Derives member X sub (snapshot.rule n) → n ∈ X)
    (hmono : (flattenSet object relation snapshot).monotonic = true)
    (hmem : ⟨member, depth⟩ ∈ (flattenSet object relation snapshot).members) :
    (object, relation) ∈ X := by
  obtain ⟨ms, V, ex, hg, hmon, hrefs⟩ := flattenSet_gathers object relation snapshot
  have hex : ex = false := by rw [hmon] at hmono; simpa using hmono
  exact hg.sound hclosed hex (hrefs ⟨_, hmem, rfl⟩)

/-- A hint of the search puts its node into every closed set of nodes. -/
theorem hint_sound {snapshot : EvaluationSnapshot} {target : EntityRef} {X : Set Node}
    {sub : Plan Node EntityRef → Prop} (hfl : Flattened snapshot target)
    (hclosed : ∀ n, Plan.Derives target X sub (snapshot.rule n) → n ∈ X) :
    ∀ n k, (snapshot.search target).hint n = some k → n ∈ X := by
  intro n k h
  obtain ⟨hwn, h⟩ : WritableNode n.1 n.2 ∧
      (snapshot.memberships.bind fun view => view.depthOf n.1 n.2 target) = some k := by
    by_cases hwn : WritableNode n.1 n.2
    · exact ⟨hwn, by simpa [EvaluationSnapshot.search, hwn] using h⟩
    · simp [EvaluationSnapshot.search, hwn] at h
  rcases hfl with hnone | ⟨entries, hsome, hentries⟩
  · simp [hnone] at h
  · rw [hsome, Option.bind_some] at h
    obtain ⟨_, e, he, hkey, rfl⟩ := IndexedMemberships.mem_of_depthOf h
    obtain ⟨hobj, hrel⟩ := nodeKey_inj hwn hkey.symm
    obtain ⟨hmono, hmem⟩ := hentries e he
    have := mem_of_flattenSet hclosed hmono hmem
    rwa [← hobj, ← hrel] at this

/-! ## Exactness -/

/-- A permit means that a required relation holds in the model. -/
theorem permit_sound {query : AuthorizationQuery} {snapshot : EvaluationSnapshot} {M : Set Fact}
    (hfl : Flattened snapshot query.subject) (hM : IsModel snapshot M)
    (hp : (evaluate query snapshot).effect = .permit) :
    snapshot.OfOrg query.orgId ∧ ∃ relation ∈ requiredRelations query snapshot.namespaces,
      ⟨query.resource, relation, query.subject⟩ ∈ M := by
  have hleast := hM.least_slice query.subject
  by_cases horg : snapshot.OfOrg query.orgId
  · obtain ⟨g, cut, tr, hchk, heff, hcut⟩ := evaluate_checks horg
    obtain ⟨hgrant, -⟩ := hchk.exact hleast hleast (hint_sound hfl hleast.closed)
    have hg : g = true := by
      by_contra hne
      simp [heff, hne] at hp
    obtain ⟨n, hn, hmem⟩ := hgrant hg
    obtain ⟨relation, hr, rfl⟩ := List.mem_map.mp hn
    exact ⟨horg, relation, hr, hmem⟩
  · obtain ⟨heff, -⟩ := evaluate_of_mismatch horg
    rw [heff] at hp
    cases hp

/-- A refusal of an organization's own query that cites no truncated walk means that no required
    relation holds in the model. -/
theorem deny_complete {query : AuthorizationQuery} {snapshot : EvaluationSnapshot} {M : Set Fact}
    (hfl : Flattened snapshot query.subject) (hM : IsModel snapshot M)
    (horg : snapshot.OfOrg query.orgId) (hd : (evaluate query snapshot).effect = .deny)
    (htr : (evaluate query snapshot).cites "walk_truncated" = false) :
    ∀ relation ∈ requiredRelations query snapshot.namespaces,
      ⟨query.resource, relation, query.subject⟩ ∉ M := by
  have hleast := hM.least_slice query.subject
  obtain ⟨g, cut, tr, hchk, heff, hcut⟩ := evaluate_checks horg
  obtain ⟨-, hrefuse⟩ := hchk.exact hleast hleast (hint_sound hfl hleast.closed)
  intro relation hr
  have hg : g = false := by
    by_contra hne
    simp [heff, hne] at hd
  exact hrefuse hg (by rw [← hcut hg, htr]) _ (List.mem_map.mpr ⟨relation, hr, rfl⟩)

/-- **Evaluation is exact up to the truncation it reports.**  In any model of the snapshot, a
    permit means that a required relation holds, and a refusal that cites neither a truncated walk
    nor a foreign organization means that none does; and without exclusions the model is unique. -/
theorem evaluate_exact (query : AuthorizationQuery) (snapshot : EvaluationSnapshot)
    (hfl : Flattened snapshot query.subject) :
    (∀ M, IsModel snapshot M →
      ((evaluate query snapshot).effect = .permit →
        ∃ relation ∈ requiredRelations query snapshot.namespaces,
          ⟨query.resource, relation, query.subject⟩ ∈ M) ∧
      ((evaluate query snapshot).effect = .deny →
        (evaluate query snapshot).cites "walk_truncated" = false →
        (evaluate query snapshot).cites "org_mismatch" = false →
        ∀ relation ∈ requiredRelations query snapshot.namespaces,
          ⟨query.resource, relation, query.subject⟩ ∉ M)) ∧
    (snapshot.ExclusionFree → ∃! M, IsModel snapshot M) := by
  refine ⟨fun M hM => ⟨fun hp => (permit_sound hfl hM hp).2, fun hd htr hno => ?_⟩,
    existsUnique_model⟩
  by_cases horg : snapshot.OfOrg query.orgId
  · exact deny_complete hfl hM horg hd htr
  · obtain ⟨-, hcite⟩ := evaluate_of_mismatch horg
    simp [hcite] at hno

/-- Tuples of one organization, as far as `write` accepts them. -/
def storedTuples (orgId : OrgId) (rows : List (EntityRef × String × SubjectRef)) :
    List RelationTuple :=
  rows.filterMap fun row =>
    (RelationTuple.write orgId row.1 row.2.1 row.2.2 ⟨1⟩ 0).toOption

/-- A document type whose `view` is bound to one plain relation. -/
def plainDocument : NamespaceDefinition :=
  ⟨acme, "document", .fromData ⟨["viewer"], [("view", ["viewer"])], []⟩ (by decide), ⟨1⟩, 0⟩

/-- `user:ann` asks to view `document:plan`. -/
def annViewsPlan : AuthorizationQuery :=
  ⟨acme, ⟨"user", "ann"⟩, ⟨"document", "view", by decide, by decide⟩, ⟨"document", "plan"⟩⟩

def flattenedSnapshot : EvaluationSnapshot where
  namespaces := .of [plainDocument]
  tuples := .of acme (storedTuples acme
    [(⟨"document", "plan"⟩, "viewer", .userset ⟨"group", "staff"⟩ "member"),
      (⟨"group", "staff"⟩, "member", .subject ⟨"user", "ann"⟩)])
  memberships := some (.of ⟨"user", "ann"⟩ [⟨⟨"group", "staff"⟩, "member", 0⟩])

theorem flattenedSnapshot_exclusionFree : flattenedSnapshot.ExclusionFree := by
  intro type relation
  have h : flattenedSnapshot.namespaces.rewritesFor type relation = .this := by
    by_cases ht : "document" = type
    · subst ht; rfl
    · have hnone : flattenedSnapshot.namespaces.get type = none := by
        show (if "document" = type then some plainDocument else none) = none
        rw [if_neg ht]
      unfold NamespaceRegistry.rewritesFor
      rw [hnone]
      rfl
  rw [h]
  exact .this

theorem evaluate_exact_flattened : ∃ M, IsModel flattenedSnapshot M ∧
    ∃ relation ∈ requiredRelations annViewsPlan flattenedSnapshot.namespaces,
      ⟨annViewsPlan.resource, relation, annViewsPlan.subject⟩ ∈ M := by
  have hfl : Flattened flattenedSnapshot annViewsPlan.subject :=
    Or.inr ⟨[⟨⟨"group", "staff"⟩, "member", 0⟩], rfl, by decide⟩
  obtain ⟨M, hM, _⟩ :=
    (evaluate_exact annViewsPlan flattenedSnapshot hfl).2 flattenedSnapshot_exclusionFree
  exact ⟨M, hM, ((evaluate_exact annViewsPlan flattenedSnapshot hfl).1 M hM).1 (by decide)⟩

end AccessCore
