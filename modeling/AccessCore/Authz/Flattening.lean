/-
  The depths that flattening reports (`collectMembers` and `flattenSet` of
  `authz/domain/evaluate.ts`).

  A flattened set should hold every member whose shortest derivation has at most
  `maxUsersetDepth` hops, once, with the hops of that derivation.  The walk is depth first and
  enters no node twice, so a node that a detour leads to first is entered at the depth of the
  detour: what it lists is reported too deep, and below the bound not at all.

  For configs that only unite, the walk is the tour of the plan graph (`collectMembers_tours`), and
  flattening keeps the smallest depth of each collected member (`flattenSet_shallowest`).  So
  flattening is exact precisely when every member within the bound is listed by some node that the
  tour enters at the member's shortest distance (`flattensExactly_iff`); this is so whenever all
  paths to an object#relation are of one length (`listed_of_oneLength`).
-/
import AccessCore.Lib.Tour
import AccessCore.Authz.UnionOnly

namespace AccessCore

open Search (Tours Yields Finds Lists OneLength after)

/-! ## The smallest depth of each member -/

/-- The depths at which a reference was met. -/
def depthsOf (seen : List FlatMember) (ref : EntityRef) : Set Nat := {k | ⟨ref, k⟩ ∈ seen}

theorem depthsOf_append_self (seen : List FlatMember) (m : FlatMember) :
    depthsOf (seen ++ [m]) m.ref = insert m.depth (depthsOf seen m.ref) := by
  ext k
  simp only [depthsOf, Set.mem_ofPred_eq, List.mem_append, List.mem_singleton, Set.mem_insert_iff]
  constructor
  · rintro (h | h)
    · exact Or.inr h
    · exact Or.inl (congrArg FlatMember.depth h)
  · rintro (rfl | h)
    · exact Or.inr rfl
    · exact Or.inl h

theorem depthsOf_append_of_ne {seen : List FlatMember} {m : FlatMember} {ref : EntityRef}
    (h : m.ref ≠ ref) : depthsOf (seen ++ [m]) ref = depthsOf seen ref := by
  ext k
  simp only [depthsOf, Set.mem_ofPred_eq, List.mem_append, List.mem_singleton]
  constructor
  · rintro (hk | hk)
    · exact hk
    · exact absurd (congrArg FlatMember.ref hk).symm h
  · exact Or.inl

/-- The map holds every reference seen, once, at the smallest of its depths. -/
structure Shallowest (byRef : OrderedMap String FlatMember) (seen : List FlatMember) : Prop where
  keyed : KeyedByRef byRef
  nodup : (byRef.map (·.1)).Nodup
  least : ∀ e ∈ byRef, IsLeast (depthsOf seen e.2.ref) e.2.depth
  covers : ∀ m ∈ seen, ∃ e ∈ byRef, e.2.ref = m.ref

theorem Shallowest.nil : Shallowest [] [] where
  keyed _ he := absurd he List.not_mem_nil
  nodup := List.nodup_nil
  least _ he := absurd he List.not_mem_nil
  covers _ hm := absurd hm List.not_mem_nil

namespace Shallowest

variable {byRef : OrderedMap String FlatMember} {seen : List FlatMember} {m : FlatMember}

/-- An entry under another key is about another reference. -/
theorem ref_ne (h : Shallowest byRef seen) {e : String × FlatMember} (he : e ∈ byRef)
    (hne : e.1 ≠ formatEntityRef m.ref) : m.ref ≠ e.2.ref := by
  intro href
  apply hne
  rw [(h.keyed e he).1, href]

/-- Setting the entry of a reference that was met to its new smallest depth. -/
theorem set (h : Shallowest byRef seen) (hm : assertWritableEntityRef m.ref = .ok ())
    {value : FlatMember} (href : value.ref = m.ref)
    (hleast : IsLeast (depthsOf (seen ++ [m]) m.ref) value.depth) :
    Shallowest (OrderedMap.set byRef (formatEntityRef m.ref) value) (seen ++ [m]) where
  keyed e he := by
    rcases OrderedMap.mem_set he with he | rfl
    · exact h.keyed e he
    · exact ⟨by rw [href], by rw [href]; exact hm⟩
  nodup := OrderedMap.nodup_set h.nodup _ _
  least e he := by
    have hkeys := OrderedMap.nodup_set h.nodup (formatEntityRef m.ref) value
    by_cases hkey : e.1 = formatEntityRef m.ref
    · have hget := OrderedMap.get?_of_mem hkeys he
      rw [OrderedMap.get?_set, if_pos hkey.symm] at hget
      obtain rfl := Option.some.inj hget
      rw [href]
      exact hleast
    · have hold : e ∈ byRef := by
        rcases OrderedMap.mem_set he with he | rfl
        · exact he
        · exact absurd rfl hkey
      rw [depthsOf_append_of_ne (h.ref_ne hold hkey)]
      exact h.least e hold
  covers x hx := by
    have hself := OrderedMap.mem_set_self byRef (formatEntityRef m.ref) value
    rcases List.mem_append.mp hx with hx | hx
    · obtain ⟨e, he, heref⟩ := h.covers x hx
      by_cases hkey : e.1 = formatEntityRef m.ref
      · have hsame : m.ref = e.2.ref := formatEntityRef_inj hm (hkey.symm.trans (h.keyed e he).1)
        exact ⟨_, hself, by rw [href, hsame, heref]⟩
      · exact ⟨e, OrderedMap.mem_set_of_mem he hkey, heref⟩
    · rw [List.mem_singleton.mp hx]
      exact ⟨_, hself, href⟩

theorem step (h : Shallowest byRef seen) (hm : assertWritableEntityRef m.ref = .ok ()) :
    Shallowest (keepShallowest byRef m) (seen ++ [m]) := by
  unfold keepShallowest
  dsimp only
  cases hseen : OrderedMap.get? byRef (formatEntityRef m.ref) with
  | none =>
    -- The first time that the reference is met.
    have hempty : depthsOf seen m.ref = ∅ := by
      rw [Set.eq_empty_iff_forall_notMem]
      intro k hk
      obtain ⟨e, he, href⟩ := h.covers _ hk
      have hkey : e.1 = formatEntityRef m.ref := by rw [(h.keyed e he).1, href]
      have hget := OrderedMap.get?_of_mem h.nodup he
      rw [hkey, hseen] at hget
      cases hget
    refine h.set hm rfl ?_
    rw [depthsOf_append_self, hempty]
    exact ⟨Set.mem_insert _ _, by simp⟩
  | some kept =>
    have hmem := OrderedMap.mem_of_get? hseen
    have href : m.ref = kept.ref := formatEntityRef_inj hm (h.keyed _ hmem).1
    have hleast : IsLeast (depthsOf seen kept.ref) kept.depth := h.least _ hmem
    rw [← href] at hleast
    dsimp only
    split_ifs with hlt
    · refine h.set hm href.symm ?_
      rw [depthsOf_append_self]
      refine ⟨Set.mem_insert _ _, fun k hk => ?_⟩
      rcases hk with rfl | hk
      · exact le_refl _
      · exact le_trans (le_of_lt hlt) (hleast.2 hk)
    · refine ⟨h.keyed, h.nodup, fun e he => ?_, fun x hx => ?_⟩
      · by_cases heref : m.ref = e.2.ref
        · have hkey : e.1 = formatEntityRef m.ref := by rw [(h.keyed e he).1, heref]
          have hget := OrderedMap.get?_of_mem h.nodup he
          rw [hkey, hseen] at hget
          obtain rfl := Option.some.inj hget
          rw [← heref, depthsOf_append_self]
          refine ⟨Set.mem_insert_of_mem _ hleast.1, fun k hk => ?_⟩
          rcases hk with rfl | hk
          · omega
          · exact hleast.2 hk
        · rw [depthsOf_append_of_ne heref]
          exact h.least e he
      · rcases List.mem_append.mp hx with hx | hx
        · exact h.covers x hx
        · rw [List.mem_singleton.mp hx]
          exact ⟨_, hmem, href.symm⟩

theorem fold {members : List FlatMember}
    (hw : ∀ m ∈ members, assertWritableEntityRef m.ref = .ok ()) :
    ∀ {byRef : OrderedMap String FlatMember} {seen : List FlatMember}, Shallowest byRef seen →
      Shallowest (members.foldl keepShallowest byRef) (seen ++ members) := by
  induction members with
  | nil =>
    intro byRef seen h
    rw [List.append_nil]
    exact h
  | cons m ms ih =>
    intro byRef seen h
    have hstep := h.step (hw m List.mem_cons_self)
    have hrest := ih (fun x hx => hw x (List.mem_cons_of_mem _ hx)) hstep
    rw [List.append_assoc] at hrest
    exact hrest

/-- The members of the map: each reference at the smallest of its depths. -/
theorem mem_members (h : Shallowest byRef seen) :
    m ∈ byRef.map (·.2) ↔ IsLeast (depthsOf seen m.ref) m.depth := by
  constructor
  · intro hm
    obtain ⟨e, he, rfl⟩ := List.mem_map.mp hm
    exact h.least e he
  · intro hleast
    obtain ⟨e, he, href⟩ := h.covers _ hleast.1
    have hsame := h.least e he
    rw [href] at hsame
    have hdepth : e.2.depth = m.depth := hsame.unique hleast
    have hmember : e.2 = m := by
      cases m
      cases hvalue : e.2
      rw [hvalue] at href hdepth
      simp_all
    exact List.mem_map.mpr ⟨e, he, hmember⟩

theorem nodup_refs (h : Shallowest byRef seen) : ((byRef.map (·.2)).map (·.ref)).Nodup := by
  have hkeys : ((byRef.map (·.2)).map (·.ref)).map formatEntityRef = byRef.map (·.1) := by
    rw [List.map_map, List.map_map]
    exact List.map_congr_left fun e he => (h.keyed e he).1.symm
  have hnodup := h.nodup
  rw [← hkeys] at hnodup
  exact hnodup.of_map _

end Shallowest

/-! ## The walk is the tour -/

section Tours

variable {resource : EntityRef} {snapshot : EvaluationSnapshot}

/-- The result of a call of the code is what the tour of the call yields. -/
def Toured (snapshot : EvaluationSnapshot) (resource : EntityRef) (d : Nat)
    (c : Call Node EntityRef) (V : List Node) (excluded : Bool)
    (result : List FlatMember × Collect) : Prop :=
  ∃ es, result.2 = collectOf (after V es) excluded ∧ (∀ m ∈ after V es, Walkable resource m) ∧
    Tours snapshot.rule maxUsersetDepth d c V es ∧
    ∀ m, m ∈ result.1 ↔ Yields snapshot.rule d c es m.ref m.depth

/-- The recursive call of the walk is the tour at every walkable node. -/
def TouredNodes (snapshot : EvaluationSnapshot) (resource : EntityRef)
    (recur : EntityRef → String → Nat → Collect → Collected) : Prop :=
  ∀ (n : Node) (d : Nat) (V : List Node) (excluded : Bool) (result : List FlatMember × Collect),
    Walkable resource n → (∀ m ∈ V, Walkable resource m) →
    recur n.1 n.2 d (collectOf V excluded) = some result →
    Toured snapshot resource d (.node n) V excluded result

variable {recur : EntityRef → String → Nat → Collect → Collected} {object : EntityRef}
  {relation : String} {depth : Nat}

/-- The loop meets direct subjects and usersets in row order; only the usersets enter nodes. -/
theorem collectThis_toured (hrec : TouredNodes snapshot resource recur) :
    ∀ {subjects : List SubjectRef} {V : List Node} {excluded : Bool}
      {result : List FlatMember × Collect},
      (∀ n ∈ usersetNodes subjects, Walkable resource n) → (∀ m ∈ V, Walkable resource m) →
      collectThis recur depth subjects (collectOf V excluded) = some result →
      ∃ es, result.2 = collectOf (after V es) excluded ∧
        (∀ m ∈ after V es, Walkable resource m) ∧
        Tours snapshot.rule maxUsersetDepth depth (.anyOf (gotoUsersets subjects)) V es ∧
        ∀ m, m ∈ result.1 ↔ (m.ref ∈ directRefs subjects ∧ m.depth = depth) ∨
          Yields snapshot.rule depth (.anyOf (gotoUsersets subjects)) es m.ref m.depth := by
  intro subjects
  induction subjects with
  | nil =>
    intro V excluded result _ hV h
    obtain rfl := Option.some.inj h
    refine ⟨[], rfl, hV, .anyNil, fun m => ?_⟩
    constructor
    · intro hm
      cases hm
    · rintro (⟨hm, -⟩ | hm)
      · cases hm
      · exact absurd hm Search.yields_anyNil
  | cons subject subjects ih =>
    intro V excluded result hw hV h
    cases subject with
    | subject ref =>
      obtain ⟨⟨members, state⟩, hrest, h⟩ := Option.bind_eq_some_iff.mp h
      obtain rfl := Option.some.inj h
      obtain ⟨es, hst, hV', htour, hmembers⟩ := ih hw hV hrest
      refine ⟨es, hst, hV', htour, fun m => ?_⟩
      have hhead : m = ⟨ref, depth⟩ ↔ m.ref = ref ∧ m.depth = depth := by
        cases m
        simp
      have hdirect : directRefs (.subject ref :: subjects) = ref :: directRefs subjects := rfl
      rw [List.mem_cons, hmembers m, hhead, hdirect, List.mem_cons, or_and_right, or_assoc]
      rfl
    | userset ref rel =>
      have hn : Walkable resource (ref, rel) := hw _ (List.mem_cons_self ..)
      obtain ⟨⟨sub, state⟩, hsub, h⟩ := Option.bind_eq_some_iff.mp h
      obtain ⟨es, rfl, hV₁, htour, hsubMembers⟩ := hrec (ref, rel) _ _ _ _ hn hV hsub
      obtain ⟨⟨members, state⟩, hrest, h⟩ := Option.bind_eq_some_iff.mp h
      obtain rfl := Option.some.inj h
      obtain ⟨es', hst, hV', htour', hmembers⟩ :=
        ih (fun n hn => hw n (List.mem_cons_of_mem _ hn)) hV₁ hrest
      rw [← Search.after_append] at hst hV'
      refine ⟨es ++ es', hst, hV', .anyCons (.goto htour) htour', fun m => ?_⟩
      have hcons : gotoUsersets (.userset ref rel :: subjects) =
          .goto (ref, rel) 1 true :: gotoUsersets subjects := rfl
      rw [List.mem_append, hsubMembers m, hmembers m, hcons, Search.yields_anyCons,
        Search.yields_goto]
      exact or_left_comm

theorem collectTupleset_toured (hrec : TouredNodes snapshot resource recur) {computed : String} :
    ∀ {subjects : List SubjectRef} {V : List Node} {excluded : Bool}
      {result : List FlatMember × Collect},
      (∀ ref ∈ directRefs subjects, Walkable resource (ref, computed)) →
      (∀ m ∈ V, Walkable resource m) →
      collectTupleset recur depth computed subjects (collectOf V excluded) = some result →
      Toured snapshot resource depth (.anyOf (gotoSubjects computed subjects)) V excluded
        result := by
  intro subjects
  induction subjects with
  | nil =>
    intro V excluded result _ hV h
    obtain rfl := Option.some.inj h
    refine ⟨[], rfl, hV, .anyNil, fun m => ?_⟩
    constructor
    · intro hm
      cases hm
    · intro hm
      exact absurd hm Search.yields_anyNil
  | cons subject subjects ih =>
    intro V excluded result hw hV h
    cases subject with
    | userset ref rel => exact ih hw hV h
    | subject ref =>
      have hn : Walkable resource (ref, computed) := hw _ (List.mem_cons_self ..)
      obtain ⟨⟨sub, state⟩, hsub, h⟩ := Option.bind_eq_some_iff.mp h
      obtain ⟨es, rfl, hV₁, htour, hsubMembers⟩ := hrec (ref, computed) _ _ _ _ hn hV hsub
      obtain ⟨⟨members, state⟩, hrest, h⟩ := Option.bind_eq_some_iff.mp h
      obtain rfl := Option.some.inj h
      obtain ⟨es', hst, hV', htour', hmembers⟩ :=
        ih (fun r hr => hw r (List.mem_cons_of_mem _ hr)) hV₁ hrest
      rw [← Search.after_append] at hst hV'
      refine ⟨es ++ es', hst, hV', .anyCons (.goto htour) htour', fun m => ?_⟩
      have hcons : gotoSubjects computed (.subject ref :: subjects) =
          .goto (ref, computed) 1 false :: gotoSubjects computed subjects := rfl
      rw [List.mem_append, hsubMembers m, hmembers m, hcons, Search.yields_anyCons,
        Search.yields_goto]

/-- What a rewrite tree's own collection must be. -/
def TouredTree (snapshot : EvaluationSnapshot) (resource object : EntityRef) (relation : String)
    (recur : EntityRef → String → Nat → Collect → Collected) (depth : Nat) (rewrite : Userset) :
    Prop :=
  ∀ (V : List Node) (excluded : Bool) (result : List FlatMember × Collect),
    (∀ m ∈ V, Walkable resource m) →
    collectRewrite recur snapshot object relation depth rewrite (collectOf V excluded) =
      some result →
    Toured snapshot resource depth
      (.tree (rewrite.plan (snapshot.tuples.subjectsOf object) object relation)) V excluded result

theorem collectUnion_toured {children : List Userset}
    (h : ∀ c ∈ children, TouredTree snapshot resource object relation recur depth c) :
    ∀ {V : List Node} {excluded : Bool} {result : List FlatMember × Collect},
      (∀ m ∈ V, Walkable resource m) →
      collectUnion recur snapshot object relation depth children (collectOf V excluded) =
        some result →
      Toured snapshot resource depth
        (.anyOf (Userset.plans (snapshot.tuples.subjectsOf object) object relation children)) V
        excluded result := by
  induction children with
  | nil =>
    intro V excluded result hV hc
    obtain rfl := Option.some.inj hc
    refine ⟨[], rfl, hV, .anyNil, fun m => ?_⟩
    constructor
    · intro hm
      cases hm
    · intro hm
      exact absurd hm Search.yields_anyNil
  | cons c cs ih =>
    intro V excluded result hV hc
    rw [collectUnion] at hc
    obtain ⟨⟨sub, state⟩, hsub, hc⟩ := Option.bind_eq_some_iff.mp hc
    obtain ⟨es, rfl, hV₁, htour, hsubMembers⟩ := h c (List.mem_cons_self ..) _ _ _ hV hsub
    obtain ⟨⟨members, state⟩, hrest, hc⟩ := Option.bind_eq_some_iff.mp hc
    obtain rfl := Option.some.inj hc
    obtain ⟨es', hst, hV', htour', hmembers⟩ := ih (fun d hd => h d (by simp [hd])) hV₁ hrest
    rw [← Search.after_append] at hst hV'
    refine ⟨es ++ es', hst, hV', .anyCons htour htour', fun m => ?_⟩
    rw [List.mem_append, hsubMembers m, hmembers m, Userset.plans, Search.yields_anyCons]

/-- One rewrite tree that only unites collects its tour. -/
theorem collectRewrite_toured (hrec : TouredNodes snapshot resource recur)
    (hobj : Walkable resource (object, relation)) {relations : List String}
    {rewrite : Userset} (hunion : rewrite.UnionOnly) :
    ∀ {level : Nat}, validateUserset relations rewrite level = .ok () →
      TouredTree snapshot resource object relation recur depth rewrite := by
  induction hunion with
  | this =>
    intro level _ V excluded result hV h
    obtain ⟨es, hst, hV', htour, hmembers⟩ :=
      collectThis_toured hrec (fun n hn => Or.inr (writable_userset hn)) hV h
    have hplan : Tours snapshot.rule maxUsersetDepth depth (.anyOf
        (.leaf (directRefs (snapshot.tuples.subjectsOf object relation)) ::
          gotoUsersets (snapshot.tuples.subjectsOf object relation))) V ([] ++ es) :=
      .anyCons .leaf htour
    refine ⟨es, hst, hV', .any hplan, fun m => ?_⟩
    have hyields : Yields snapshot.rule depth (.anyOf
        (.leaf (directRefs (snapshot.tuples.subjectsOf object relation)) ::
          gotoUsersets (snapshot.tuples.subjectsOf object relation)))
            ([] ++ es) m.ref m.depth ↔ _ :=
      Search.yields_anyCons
    rw [hmembers m, Userset.plan, Search.yields_any]
    rw [Search.yields_leaf, List.nil_append] at hyields
    exact hyields.symm
  | computedUserset rel =>
    intro level hv V excluded result hV h
    obtain ⟨es, hst, hV', htour, hmembers⟩ :=
      hrec (object, rel) _ _ _ _ (hobj.computed (validateUserset_ok hv).2.1) hV h
    refine ⟨es, hst, hV', .goto (by simpa using htour), fun m => ?_⟩
    rw [hmembers m, Userset.plan, Search.yields_goto, Nat.add_zero]
  | tupleToUserset tupleset computed =>
    intro level hv V excluded result hV h
    obtain ⟨es, hst, hV', htour, hmembers⟩ := collectTupleset_toured hrec
      (fun ref hr => Walkable.subject (mem_directRefs.mp hr) (validateUserset_ok hv).2.2.1) hV h
    refine ⟨es, hst, hV', .any htour, fun m => ?_⟩
    rw [hmembers m, Userset.plan, Search.yields_any]
  | union _ ih =>
    intro level hv V excluded result hV h
    rw [collectRewrite] at h
    obtain ⟨es, hst, hV', htour, hmembers⟩ :=
      collectUnion_toured (fun c hc => ih c hc ((validateUserset_ok hv).2.2 c hc)) hV h
    refine ⟨es, hst, hV', .any htour, fun m => ?_⟩
    rw [hmembers m, Userset.plan, Search.yields_any]

theorem collectFuel_toured (hunion : snapshot.namespaces.UnionOnly) (fuel : Nat) :
    TouredNodes snapshot resource (collectFuel snapshot fuel) := by
  induction fuel with
  | zero => intro n d V excluded result _ _ h; simp [collectFuel] at h
  | succ fuel ih =>
    intro n d V excluded result hn hV h
    -- A call that enters nothing.
    have hnothing : result = ([], collectOf V excluded) →
        Tours snapshot.rule maxUsersetDepth d (.node n) V [] →
        Toured snapshot resource d (.node n) V excluded result := by
      rintro rfl htour
      refine ⟨[], rfl, hV, htour, fun m => ?_⟩
      constructor
      · intro hm
        cases hm
      · intro hm
        exact absurd hm Search.yields_node_nil
    rw [collectFuel] at h
    split_ifs at h with hd hv
    · exact hnothing (Option.some.inj h).symm (.tooDeep hd)
    · exact hnothing (Option.some.inj h).symm
        (.seen (Nat.not_lt.mp hd) ((mem_map_key hn hV).mp hv))
    · obtain ⟨relations, hvalid⟩ := snapshot.namespaces.rewritesFor_valid n.1.type n.2
      have hV₀ : ∀ m ∈ n :: V, Walkable resource m := by
        intro m hm
        rcases List.mem_cons.mp hm with rfl | hm
        · exact hn
        · exact hV m hm
      obtain ⟨es, hst, hV', htour, hmembers⟩ :=
        collectRewrite_toured ih hn (hunion n.1.type n.2) hvalid (n :: V) excluded _ hV₀ h
      rw [← Search.after_cons V n d es] at hst hV'
      refine ⟨(n, d) :: es, hst, hV', .enter (Nat.not_lt.mp hd)
        (fun hm => hv ((mem_map_key hn hV).mpr hm)) htour, fun m => ?_⟩
      rw [hmembers m, Search.yields_node_cons]
      rfl

/-- **The expand walk of a config that only unites is the tour of its plan graph.** -/
theorem collectMembers_tours (hunion : snapshot.namespaces.UnionOnly) (object : EntityRef)
    (relation : String) : ∃ es,
      Tours snapshot.rule maxUsersetDepth 0 (.node (object, relation)) [] es ∧
      ∀ m, m ∈ (collectMembers snapshot object relation 0 ⟨[], false⟩).1 ↔
        ∃ n, (n, m.depth) ∈ es ∧ Lists m.ref (snapshot.rule n) := by
  have hwalk : Toured snapshot object 0 (.node (object, relation)) [] false
      (collectMembers snapshot object relation 0 ⟨[], false⟩) :=
    collectFuel_toured hunion _ (object, relation) 0 [] false _ (Or.inl rfl) noneVisited
      (collectFuel_collectMembers snapshot object relation 0 ⟨[], false⟩)
  obtain ⟨es, -, -, htour, hmembers⟩ := hwalk
  refine ⟨es, htour, fun m => (hmembers m).trans ?_⟩
  constructor
  · rintro (⟨h, -⟩ | h)
    · exact absurd h id
    · exact h
  · exact Or.inr

end Tours

/-! ## Derivations -/

/-- `Hops snapshot subject object relation rewrite k`: the tree makes `subject` a member of
    `object#relation` by a derivation of `k` hops, a hop being a userset tuple or a tupleset
    step. -/
inductive Hops (snapshot : EvaluationSnapshot) (subject : EntityRef) :
    EntityRef → String → Userset → Nat → Prop where
  | direct {object relation}
      (h : .subject subject ∈ snapshot.tuples.subjectsOf object relation) :
      Hops snapshot subject object relation .this 0
  | userset {object relation ref rel k}
      (h : .userset ref rel ∈ snapshot.tuples.subjectsOf object relation)
      (hk : Hops snapshot subject ref rel (snapshot.namespaces.rewritesFor ref.type rel) k) :
      Hops snapshot subject object relation .this (k + 1)
  | computedUserset {object relation rel k}
      (hk : Hops snapshot subject object rel (snapshot.namespaces.rewritesFor object.type rel) k) :
      Hops snapshot subject object relation (.computedUserset rel) k
  | tupleToUserset {object relation tupleset computed ref k}
      (h : .subject ref ∈ snapshot.tuples.subjectsOf object tupleset)
      (hk : Hops snapshot subject ref computed
        (snapshot.namespaces.rewritesFor ref.type computed) k) :
      Hops snapshot subject object relation (.tupleToUserset tupleset computed) (k + 1)
  | union {object relation children child k} (hchild : child ∈ children)
      (hk : Hops snapshot subject object relation child k) :
      Hops snapshot subject object relation (.union children) k

section Derivations

variable {snapshot : EvaluationSnapshot} {subject object : EntityRef} {relation : String}

/-- `subject` is a member of `object#relation` by a derivation of `k` hops. -/
def DerivedIn (snapshot : EvaluationSnapshot) (subject object : EntityRef) (relation : String)
    (k : Nat) : Prop :=
  Hops snapshot subject object relation (snapshot.namespaces.rewritesFor object.type relation) k

theorem mem_plans {p : Plan Node EntityRef} {subjectsOf : String → List SubjectRef}
    {children : List Userset} : p ∈ Userset.plans subjectsOf object relation children ↔
      ∃ child ∈ children, p = child.plan subjectsOf object relation := by
  induction children with
  | nil => simp [Userset.plans]
  | cons child children ih =>
    rw [Userset.plans, List.mem_cons, ih, List.exists_mem_cons_iff]

theorem Hops.finds {rewrite : Userset} {k : Nat}
    (h : Hops snapshot subject object relation rewrite k) :
    Finds snapshot.rule subject
      (rewrite.plan (snapshot.tuples.subjectsOf object) object relation) k := by
  induction h with
  | direct h =>
    rw [Userset.plan]
    exact .any List.mem_cons_self (.leaf (mem_directRefs.mpr h))
  | @userset object relation ref rel k h _ ih =>
    have hgoto : Plan.goto (ref, rel) 1 true ∈
        gotoUsersets (snapshot.tuples.subjectsOf object relation) :=
      List.mem_map.mpr ⟨(ref, rel), mem_usersetNodes.mpr h, rfl⟩
    have hfinds : Finds snapshot.rule subject (.goto (ref, rel) 1 true) (1 + k) := .goto ih
    rw [Userset.plan, Nat.add_comm]
    exact .any (List.mem_cons_of_mem _ hgoto) hfinds
  | @computedUserset object relation rel k _ ih =>
    have hfinds : Finds snapshot.rule subject (.goto (object, rel) 0 false) (0 + k) := .goto ih
    rw [Nat.zero_add] at hfinds
    exact hfinds
  | @tupleToUserset object relation tupleset computed ref k h _ ih =>
    have hgoto : Plan.goto (ref, computed) 1 false ∈
        gotoSubjects computed (snapshot.tuples.subjectsOf object tupleset) :=
      List.mem_map.mpr ⟨ref, mem_directRefs.mpr h, rfl⟩
    have hfinds : Finds snapshot.rule subject (.goto (ref, computed) 1 false) (1 + k) := .goto ih
    rw [Userset.plan, Nat.add_comm]
    exact .any hgoto hfinds
  | union hchild _ ih =>
    rw [Userset.plan]
    exact .any (mem_plans.mpr ⟨_, hchild, rfl⟩) ih

/-- Read backwards, a tree is one of its trees' plans, a reference or a leaf. -/
theorem hops_of_finds {p : Plan Node EntityRef} {k : Nat} (h : Finds snapshot.rule subject p k) :
    (∀ object relation rewrite,
      p = rewrite.plan (snapshot.tuples.subjectsOf object) object relation →
      Hops snapshot subject object relation rewrite k) ∧
    (∀ n w hinted, p = .goto n w hinted → ∃ j, k = w + j ∧ DerivedIn snapshot subject n.1 n.2 j) ∧
    (∀ refs, p = .leaf refs → subject ∈ refs ∧ k = 0) := by
  induction h with
  | @leaf refs h =>
    refine ⟨fun object relation rewrite hplan => ?_, fun n w hinted hplan => ?_,
      fun refs' hplan => ?_⟩
    · cases rewrite <;> cases hplan
    · cases hplan
    · obtain rfl := Plan.leaf.inj hplan
      exact ⟨h, rfl⟩
  | @goto n w hinted k _ ih =>
    have hnode : DerivedIn snapshot subject n.1 n.2 k := ih.1 n.1 n.2 _ rfl
    refine ⟨fun object relation rewrite hplan => ?_, fun n' w' hinted' hplan => ?_,
      fun refs hplan => ?_⟩
    · cases rewrite with
      | computedUserset rel =>
        obtain ⟨rfl, rfl, -⟩ := Plan.goto.inj hplan
        rw [Nat.zero_add]
        exact .computedUserset hnode
      | _ => cases hplan
    · obtain ⟨rfl, rfl, -⟩ := Plan.goto.inj hplan
      exact ⟨k, rfl, hnode⟩
    · cases hplan
  | @any p ps k hp _ ih =>
    refine ⟨fun object relation rewrite hplan => ?_, fun n w hinted hplan => ?_,
      fun refs hplan => ?_⟩
    · cases rewrite with
      | this =>
        obtain rfl := Plan.any.inj hplan
        rcases List.mem_cons.mp hp with rfl | hp
        · obtain ⟨hmem, rfl⟩ := ih.2.2 _ rfl
          exact .direct (mem_directRefs.mp hmem)
        · obtain ⟨n, hn, rfl⟩ := List.mem_map.mp hp
          obtain ⟨j, rfl, hnode⟩ := ih.2.1 _ _ _ rfl
          rw [Nat.add_comm]
          exact .userset (mem_usersetNodes.mp hn) hnode
      | tupleToUserset tupleset computed =>
        obtain rfl := Plan.any.inj hplan
        obtain ⟨ref, href, rfl⟩ := List.mem_map.mp hp
        obtain ⟨j, rfl, hnode⟩ := ih.2.1 _ _ _ rfl
        rw [Nat.add_comm]
        exact .tupleToUserset (mem_directRefs.mp href) hnode
      | union children =>
        obtain rfl := Plan.any.inj hplan
        obtain ⟨child, hchild, rfl⟩ := mem_plans.mp hp
        exact .union hchild (ih.1 _ _ _ rfl)
      | _ => cases hplan
    · cases hplan
    · cases hplan

/-- A derivation is a path of the plan graph, with the same hops. -/
theorem derivedIn_iff {k : Nat} : DerivedIn snapshot subject object relation k ↔
    Finds snapshot.rule subject (snapshot.rule (object, relation)) k :=
  ⟨Hops.finds, fun h => (hops_of_finds h).1 _ _ _ rfl⟩

end Derivations

/-! ## When flattening is exact -/

section Flatten

variable {snapshot : EvaluationSnapshot} {object : EntityRef} {relation : String}

/-- What flattening keeps: each collected reference at the smallest of its depths. -/
theorem flattenSet_shallowest (object : EntityRef) (relation : String)
    (snapshot : EvaluationSnapshot) :
    (∀ m, m ∈ (flattenSet object relation snapshot).members ↔
      IsLeast (depthsOf (collectMembers snapshot object relation 0 ⟨[], false⟩).1 m.ref) m.depth) ∧
    ((flattenSet object relation snapshot).members.map (·.ref)).Nodup := by
  have hcol : Collects snapshot object 0 (.node (object, relation)) [] false
      (collectMembers snapshot object relation 0 ⟨[], false⟩) :=
    collectMembers_gathers (n := (object, relation)) (Or.inl rfl) noneVisited false
  obtain ⟨V, ex, -, -, hg⟩ := hcol
  have hw : ∀ m ∈ (collectMembers snapshot object relation 0 ⟨[], false⟩).1,
      assertWritableEntityRef m.ref = .ok () :=
    fun m hm => hg.within rule_within trivial m.ref ⟨m, hm, rfl⟩
  have hfold := Shallowest.fold hw Shallowest.nil
  rw [List.nil_append] at hfold
  exact ⟨fun m => hfold.mem_members, hfold.nodup_refs⟩

/-- Flattening reports exactly the members whose shortest derivation has at most
    `maxUsersetDepth` hops, each once, at the hops of that derivation. -/
structure FlattensExactly (snapshot : EvaluationSnapshot) (object : EntityRef)
    (relation : String) : Prop where
  members : ∀ m : FlatMember, m ∈ (flattenSet object relation snapshot).members ↔
    IsLeast {k | DerivedIn snapshot m.ref object relation k} m.depth ∧ m.depth ≤ maxUsersetDepth
  once : ((flattenSet object relation snapshot).members.map (·.ref)).Nodup

/-- **When flattening is exact.**  Exactly when every subject whose shortest derivation is within
the bound is listed by a node that the depth-first tour of the graph enters at that many hops. -/
theorem flattensExactly_iff (hunion : snapshot.namespaces.UnionOnly) :
    FlattensExactly snapshot object relation ↔
      ∀ subject k, IsLeast {j | DerivedIn snapshot subject object relation j} k →
        k ≤ maxUsersetDepth →
        ∀ es, Tours snapshot.rule maxUsersetDepth 0 (.node (object, relation)) [] es →
          ∃ n, (n, k) ∈ es ∧ Lists subject (snapshot.rule n) := by
  obtain ⟨es, htour, hcollected⟩ := collectMembers_tours hunion object relation
  obtain ⟨hmembers, honce⟩ := flattenSet_shallowest object relation snapshot
  -- A collected member has a derivation of as many hops as it was collected at.
  have hsound : ∀ ref k, k ∈ depthsOf
      (collectMembers snapshot object relation 0 ⟨[], false⟩).1 ref →
      DerivedIn snapshot ref object relation k ∧ k ≤ maxUsersetDepth := by
    intro ref k hk
    obtain ⟨n, hn, hlists⟩ := (hcollected ⟨ref, k⟩).mp hk
    obtain ⟨-, hfinds⟩ := htour.finds (m := ref) (n, k) hn
    have hderived := hfinds 0 hlists.finds
    rw [Nat.sub_zero, Nat.add_zero] at hderived
    exact ⟨derivedIn_iff.mpr hderived, htour.depth_le (n, k) hn⟩
  constructor
  · intro hexact subject k hleast hk es' htour'
    obtain rfl := htour.unique htour'
    have hreported := (hexact.members ⟨subject, k⟩).mpr ⟨hleast, hk⟩
    have hdepth := ((hmembers _).mp hreported).1
    exact (hcollected ⟨subject, k⟩).mp hdepth
  · intro hmet
    -- What is met at its shortest distance is collected there, and nowhere before.
    have hkept : ∀ subject k, IsLeast {j | DerivedIn snapshot subject object relation j} k →
        k ≤ maxUsersetDepth → IsLeast (depthsOf
          (collectMembers snapshot object relation 0 ⟨[], false⟩).1 subject) k := by
      intro subject k hleast hk
      refine ⟨(hcollected ⟨subject, k⟩).mpr (hmet subject k hleast hk es htour), ?_⟩
      intro j hj
      exact hleast.2 (hsound subject j hj).1
    refine ⟨fun m => ?_, honce⟩
    rw [hmembers m]
    constructor
    · intro hdepth
      obtain ⟨hderived, hle⟩ := hsound m.ref m.depth hdepth.1
      have hshortest : ∃ k, IsLeast {j | DerivedIn snapshot m.ref object relation j} k := by
        classical
        exact ⟨Nat.find ⟨m.depth, hderived⟩, Nat.find_spec ⟨m.depth, hderived⟩,
          fun j hj => Nat.find_min' _ hj⟩
      obtain ⟨k, hk⟩ := hshortest
      have hkle : k ≤ maxUsersetDepth := le_trans (hk.2 hderived) hle
      have hsame : m.depth = k := hdepth.unique (hkept m.ref k hk hkle)
      rw [hsame]
      exact ⟨hk, hkle⟩
    · rintro ⟨hleast, hle⟩
      exact hkept m.ref m.depth hleast hle

/-- Where all paths to an object#relation are of one length, every subject is listed where its
shortest derivation leads. -/
theorem listed_of_oneLength (hone : OneLength snapshot.rule (object, relation))
    {subject : EntityRef}
    {k : Nat} (hleast : IsLeast {j | DerivedIn snapshot subject object relation j} k)
    (hk : k ≤ maxUsersetDepth) {es : List (Node × Nat)}
    (htour : Tours snapshot.rule maxUsersetDepth 0 (.node (object, relation)) [] es) :
    ∃ n, (n, k) ∈ es ∧ Lists subject (snapshot.rule n) :=
  htour.meets hone (derivedIn_iff.mp hleast.1) hk

end Flatten

/-- Who views a folder views the documents in it. -/
def folderDocument : NamespaceDefinition :=
  ⟨acme, "document", .fromData ⟨["viewer", "parent"], [("view", ["viewer"])],
    [("viewer", .union [.this, .tupleToUserset "parent" "viewer"])]⟩ (by decide), ⟨1⟩, 0⟩

/-- The plan is in two folders that staff views; ann, who is in staff, also views it in person. -/
def twoFolders : EvaluationSnapshot :=
  .plain (.of [folderDocument]) acme (storedTuples acme
    [(⟨"document", "plan"⟩, "viewer", .subject ⟨"user", "ann"⟩),
      (⟨"document", "plan"⟩, "parent", .subject ⟨"folder", "q3"⟩),
      (⟨"document", "plan"⟩, "parent", .subject ⟨"folder", "q4"⟩),
      (⟨"folder", "q3"⟩, "viewer", .userset ⟨"group", "staff"⟩ "member"),
      (⟨"folder", "q4"⟩, "viewer", .userset ⟨"group", "staff"⟩ "member"),
      (⟨"group", "staff"⟩, "member", .subject ⟨"user", "ann"⟩),
      (⟨"group", "staff"⟩, "member", .subject ⟨"user", "bea"⟩)])

theorem twoFolders_unionOnly : twoFolders.namespaces.UnionOnly := by
  intro type relation
  by_cases ht : "document" = type
  · subst ht
    by_cases hr : "viewer" = relation
    · subst hr
      refine Userset.UnionOnly.union fun child hchild => ?_
      rcases List.mem_pair.mp hchild with rfl | rfl
      · exact .this
      · exact .tupleToUserset _ _
    · have hrewrite : twoFolders.namespaces.rewritesFor "document" relation = .this := by
        show (OrderedMap.get? [("viewer", Userset.union
          [.this, .tupleToUserset "parent" "viewer"])] relation).getD .this = .this
        simp [OrderedMap.get?, hr]
      rw [hrewrite]
      exact .this
  · have hnone : twoFolders.namespaces.get type = none := by
      show (if "document" = type then some folderDocument else none) = none
      rw [if_neg ht]
    unfold NamespaceRegistry.rewritesFor
    rw [hnone]
    exact .this

/-- The two ways to the group are of one length. -/
theorem twoFolders_oneLength : OneLength twoFolders.rule (⟨"document", "plan"⟩, "viewer") :=
  Search.oneLength_of_closed
    [((⟨"document", "plan"⟩, "viewer"), 0), ((⟨"folder", "q3"⟩, "viewer"), 1),
      ((⟨"folder", "q4"⟩, "viewer"), 1), ((⟨"group", "staff"⟩, "member"), 2)]
    (by decide) (by decide +kernel) (by decide)

theorem flattensExactly_twoFolders :
    FlattensExactly twoFolders ⟨"document", "plan"⟩ "viewer" :=
  (flattensExactly_iff twoFolders_unionOnly).mpr fun _ _ hleast hk _ htour =>
    listed_of_oneLength twoFolders_oneLength hleast hk htour

example : (flattenSet ⟨"document", "plan"⟩ "viewer" twoFolders).members =
    [⟨⟨"user", "ann"⟩, 0⟩, ⟨⟨"user", "bea"⟩, 2⟩] := by decide +kernel

/-- Without configs every relation is `this`. -/
theorem noConfigs_unionOnly : (NamespaceRegistry.of []).UnionOnly := fun _ _ => .this

/-- The tuples of acme, and no configs. -/
def acmeGroups (rows : List (EntityRef × String × SubjectRef)) : EvaluationSnapshot :=
  .plain (.of []) acme (storedTuples acme rows)

/-- Staff are the members of two groups, the second of which is also in the first. -/
def detour : EvaluationSnapshot :=
  acmeGroups [(⟨"group", "staff"⟩, "member", .userset ⟨"group", "leads"⟩ "member"),
    (⟨"group", "staff"⟩, "member", .userset ⟨"group", "board"⟩ "member"),
    (⟨"group", "leads"⟩, "member", .userset ⟨"group", "board"⟩ "member"),
    (⟨"group", "board"⟩, "member", .subject ⟨"user", "ann"⟩)]

/-- Ann is two hops away by the detour that the walk takes, and one hop by the shortest way. -/
theorem not_flattensExactly : ¬ ∀ (snapshot : EvaluationSnapshot) (object : EntityRef)
    (relation : String), snapshot.namespaces.UnionOnly →
      FlattensExactly snapshot object relation := by
  intro h
  have hexact := h detour ⟨"group", "staff"⟩ "member" noConfigs_unionOnly
  have hreported : (⟨⟨"user", "ann"⟩, 2⟩ : FlatMember) ∈
      (flattenSet ⟨"group", "staff"⟩ "member" detour).members := by decide +kernel
  have hleast := ((hexact.members _).mp hreported).1
  have hrow : SubjectRef.userset ⟨"group", "board"⟩ "member" ∈
      detour.tuples.subjectsOf ⟨"group", "staff"⟩ "member" := by decide +kernel
  have hboard : DerivedIn detour ⟨"user", "ann"⟩ ⟨"group", "board"⟩ "member" 0 :=
    .direct (by decide +kernel)
  have hone : DerivedIn detour ⟨"user", "ann"⟩ ⟨"group", "staff"⟩ "member" 1 :=
    .userset hrow hboard
  exact absurd (hleast.2 hone) (by decide)

end AccessCore
