/-
  Configs that only unite: rewrite trees built from `this`, computed usersets, tuplesets and
  unions.

  For such configs the meaning of a snapshot is monotone: more tuples, more facts.  The check is
  not.  A new tuple can make the depth-first walk meet a node first along a longer path, where the
  depth bound cuts what lies below it, and the node is not entered again along the shorter path
  (`evaluate_not_monotone`).  What remains is that a permit can only be lost to a cut that is
  reported (`evaluate_monotone`): the check is exact up to the truncation it reports, and meaning
  is monotone.
-/
import AccessCore.Authz.Agreement

namespace AccessCore

/-- No intersection and no exclusion anywhere in the tree. -/
inductive Userset.UnionOnly : Userset → Prop where
  | this : UnionOnly .this
  | computedUserset (relation) : UnionOnly (.computedUserset relation)
  | tupleToUserset (tupleset computed) : UnionOnly (.tupleToUserset tupleset computed)
  | union {children} (h : ∀ c ∈ children, UnionOnly c) : UnionOnly (.union children)

theorem Userset.UnionOnly.exclusionFree {rewrite : Userset} (h : rewrite.UnionOnly) :
    rewrite.ExclusionFree := by
  induction h with
  | this => exact .this
  | computedUserset relation => exact .computedUserset relation
  | tupleToUserset tupleset computed => exact .tupleToUserset tupleset computed
  | union _ ih => exact .union ih

/-- Every rewrite tree of every config only unites. -/
def NamespaceRegistry.UnionOnly (namespaces : NamespaceRegistry) : Prop :=
  ∀ type relation, (namespaces.rewritesFor type relation).UnionOnly

/-- The snapshot of an organization's tuples, without an index. -/
def EvaluationSnapshot.plain (namespaces : NamespaceRegistry) (orgId : OrgId)
    (tuples : List RelationTuple) : EvaluationSnapshot where
  namespaces := namespaces
  tuples := .of orgId tuples

/-! ## More tuples mean more facts -/

/-- Tuples inserted anywhere only add subjects to the buckets. -/
theorem subjectsOf_sublist {orgId : OrgId} {tuples more : List RelationTuple}
    (h : tuples.Sublist more) (object : EntityRef) (relation : String) :
    (TupleIndex.of orgId tuples).subjectsOf object relation ⊆
      (TupleIndex.of orgId more).subjectsOf object relation := by
  rw [TupleIndex.subjectsOf_eq, TupleIndex.subjectsOf_eq]
  exact ((h.filter _).map _).subset

/-- The model of a snapshot is below every model of a snapshot with more tuples. -/
theorem model_mono {snapshot snapshot' : EvaluationSnapshot} {M M' : Set Fact}
    (hfree : snapshot.ExclusionFree) (hnamespaces : snapshot'.namespaces = snapshot.namespaces)
    (htuples : ∀ o r, snapshot.tuples.subjectsOf o r ⊆ snapshot'.tuples.subjectsOf o r)
    (hM : IsModel snapshot M) (hM' : IsModel snapshot' M') : M ⊆ M' := by
  have hstep : snapshot.yields M M' ⊆ snapshot'.yields M' M' := by
    intro f hf
    have hgrants : Grants snapshot'.tuples f.object f.relation f.subject M' M'
        (snapshot.namespaces.rewritesFor f.object.type f.relation) :=
      Grants.mono (hfree f.object.type f.relation) htuples (Set.Subset.refl M') hf
    rw [← hnamespaces] at hgrants
    exact hgrants
  exact hM.least M' (hstep.trans hM'.closed)

/-! ## A permit can only be lost to a reported cut -/

/-- **Adding tuples.**  Where configs only unite, a permitted query is still permitted after any
tuples are inserted anywhere, or it is refused with the walk reported as truncated. -/
theorem evaluate_monotone (query : AuthorizationQuery) (namespaces : NamespaceRegistry)
    (orgId : OrgId) {tuples more : List RelationTuple} (hmore : tuples.Sublist more)
    (hunion : namespaces.UnionOnly)
    (hpermit : (evaluate query (.plain namespaces orgId tuples)).effect = .permit) :
    (evaluate query (.plain namespaces orgId more)).effect = .permit ∨
      ((evaluate query (.plain namespaces orgId more)).effect = .deny ∧
        (evaluate query (.plain namespaces orgId more)).cites "walk_truncated" = true) := by
  have hfree : ∀ ts, (EvaluationSnapshot.plain namespaces orgId ts).ExclusionFree :=
    fun _ type relation => (hunion type relation).exclusionFree
  have hindex : ∀ ts, Flattened (.plain namespaces orgId ts) query.subject := fun _ => Or.inl rfl
  obtain ⟨M, hM, -⟩ := existsUnique_model (hfree tuples)
  obtain ⟨M', hM', -⟩ := existsUnique_model (hfree more)
  have hbuckets : ∀ o r, (EvaluationSnapshot.plain namespaces orgId tuples).tuples.subjectsOf o r ⊆
      (EvaluationSnapshot.plain namespaces orgId more).tuples.subjectsOf o r :=
    subjectsOf_sublist hmore
  have hnamespaces : (EvaluationSnapshot.plain namespaces orgId more).namespaces =
      (EvaluationSnapshot.plain namespaces orgId tuples).namespaces := rfl
  have hMM' : M ⊆ M' := model_mono (hfree tuples) hnamespaces hbuckets hM hM'
  obtain ⟨horg, relation, hrequired, hfact⟩ := permit_sound (hindex tuples) hM hpermit
  cases heffect : (evaluate query (.plain namespaces orgId more)).effect with
  | permit => exact Or.inl rfl
  | deny =>
    refine Or.inr ⟨rfl, ?_⟩
    by_contra hcut
    have hno := deny_complete (hindex more) hM' horg heffect (by simpa using hcut) relation
      hrequired
    exact hno (hMM' hfact)

/-- Only documents have a config, and it has no rewrites. -/
theorem plainDocument_unionOnly : (NamespaceRegistry.of [plainDocument]).UnionOnly := by
  intro type relation
  have hrewrite : (NamespaceRegistry.of [plainDocument]).rewritesFor type relation = .this := by
    by_cases ht : "document" = type
    · subst ht
      rfl
    · have hnone : (NamespaceRegistry.of [plainDocument]).get type = none := by
        show (if "document" = type then some plainDocument else none) = none
        rw [if_neg ht]
      unfold NamespaceRegistry.rewritesFor
      rw [hnone]
      rfl
  rw [hrewrite]
  exact .this

/-- A chain of ten groups above the one that ann is in; the document names its last but one. -/
def groupTenViews : List RelationTuple :=
  storedTuples acme
    ((⟨"document", "plan"⟩, "viewer", .userset ⟨"group", "g10"⟩ "member") ::
      (⟨"group", "g11"⟩, "member", .subject ⟨"user", "ann"⟩) ::
      groupChain ["g1", "g2", "g3", "g4", "g5", "g6", "g7", "g8", "g9", "g10", "g11"])

/-- The document also names the first group of the chain, in a row before the other. -/
def groupOneViewsToo : List RelationTuple :=
  storedTuples acme [(⟨"document", "plan"⟩, "viewer", .userset ⟨"group", "g1"⟩ "member")] ++
    groupTenViews

/-- A row that names bob, inserted before the others, leaves ann her permit. -/
theorem evaluate_monotone_bob :
    (evaluate annViewsPlan (.plain (.of [plainDocument]) acme
      (storedTuples acme [(⟨"document", "plan"⟩, "viewer", .subject ⟨"user", "bob"⟩)] ++
        groupTenViews))).effect = .permit := by
  have h := evaluate_monotone annViewsPlan (.of [plainDocument]) acme
    (List.sublist_append_right
      (storedTuples acme [(⟨"document", "plan"⟩, "viewer", .subject ⟨"user", "bob"⟩)])
      groupTenViews) plainDocument_unionOnly (by decide +kernel)
  rcases h with h | h
  · exact h
  · exact absurd h (by decide +kernel)

theorem evaluate_not_monotone :
    (NamespaceRegistry.of [plainDocument]).UnionOnly ∧ groupTenViews.Sublist groupOneViewsToo ∧
    (evaluate annViewsPlan (.plain (.of [plainDocument]) acme groupTenViews)).effect = .permit ∧
    (evaluate annViewsPlan (.plain (.of [plainDocument]) acme groupOneViewsToo)).effect = .deny :=
  ⟨plainDocument_unionOnly, List.sublist_append_right _ _, by decide +kernel, by decide +kernel⟩

end AccessCore
