/-
  The plan graph of a snapshot, and the two walks as searches over it.

  A node is an object with a relation.  Its plan is its rewrite tree with the tuples filled in:
  `this` lists the direct subjects and goes to the usersets one hop further, a computed userset
  goes to another relation of the object at the same depth, `tupleToUserset` goes one hop further
  to a relation of every direct subject of the tupleset.

  The code keys its visited set by text.  `Walkable` is the set of nodes a walk from a request's
  resource can meet, on which the text loses nothing, so the code's walk is the search:
  `derive_runs` for the check walk and `collectMembers_gathers` for the expand walk.
-/
import AccessCore.Authz.Collect
import AccessCore.Lib.Gather

namespace AccessCore

/-- A node of the relationship graph. -/
abbrev Node := EntityRef × String

def Node.key (n : Node) : String := nodeKey n.1 n.2

/-! ## Plans -/

def directRefs (subjects : List SubjectRef) : List EntityRef :=
  subjects.filterMap fun
    | .subject ref => some ref
    | .userset _ _ => none

def usersetNodes (subjects : List SubjectRef) : List Node :=
  subjects.filterMap fun
    | .subject _ => none
    | .userset ref relation => some (ref, relation)

theorem mem_directRefs {ref : EntityRef} {subjects : List SubjectRef} :
    ref ∈ directRefs subjects ↔ SubjectRef.subject ref ∈ subjects := by
  unfold directRefs
  rw [List.mem_filterMap]
  constructor
  · rintro ⟨s, hs, h⟩
    cases s <;> simp_all
  · exact fun h => ⟨_, h, rfl⟩

theorem mem_usersetNodes {n : Node} {subjects : List SubjectRef} :
    n ∈ usersetNodes subjects ↔ SubjectRef.userset n.1 n.2 ∈ subjects := by
  unfold usersetNodes
  rw [List.mem_filterMap]
  constructor
  · rintro ⟨s, hs, h⟩
    cases s with
    | subject ref => simp at h
    | userset ref relation =>
      obtain rfl : (ref, relation) = n := by simpa using h
      exact hs
  · exact fun h => ⟨_, h, rfl⟩

/-- The usersets of a row, each one hop further; the index may answer for them. -/
def gotoUsersets (subjects : List SubjectRef) : List (Plan Node EntityRef) :=
  (usersetNodes subjects).map fun n => .goto n 1 true

/-- A relation of the direct subjects of a row, one hop further. -/
def gotoSubjects (computed : String) (subjects : List SubjectRef) : List (Plan Node EntityRef) :=
  (directRefs subjects).map fun ref => .goto (ref, computed) 1 false

mutual
/-- The plan of a rewrite tree at a node, given the subjects of the object's rows. -/
def Userset.plan (subjectsOf : String → List SubjectRef) (object : EntityRef)
    (relation : String) : Userset → Plan Node EntityRef
  | .this => .any (.leaf (directRefs (subjectsOf relation)) :: gotoUsersets (subjectsOf relation))
  | .computedUserset rel => .goto (object, rel) 0 false
  | .tupleToUserset tupleset computed => .any (gotoSubjects computed (subjectsOf tupleset))
  | .union children => .any (Userset.plans subjectsOf object relation children)
  | .intersection children => .all (Userset.plans subjectsOf object relation children)
  | .exclusion base subtract =>
    .diff (Userset.plan subjectsOf object relation base)
      (Userset.plan subjectsOf object relation subtract)
/-- The plans of a list of trees. -/
def Userset.plans (subjectsOf : String → List SubjectRef) (object : EntityRef)
    (relation : String) : List Userset → List (Plan Node EntityRef)
  | [] => []
  | child :: children =>
    Userset.plan subjectsOf object relation child ::
      Userset.plans subjectsOf object relation children
end

section PlanCongr

variable {f g : String → List SubjectRef} {object : EntityRef} {relation : String}

/-- Children with the same plans make lists with the same plans. -/
theorem plans_congr {children : List Userset}
    (h : ∀ c ∈ children, c.plan f object relation = c.plan g object relation) :
    Userset.plans f object relation children = Userset.plans g object relation children := by
  induction children with
  | nil => rfl
  | cons c cs ih =>
    rw [Userset.plans, Userset.plans, h c (List.mem_cons_self ..),
      ih fun d hd => h d (List.mem_cons_of_mem _ hd)]

/-- A hinted reference of a list of trees is one of a child. -/
theorem exists_hinted_of_plans {children : List Userset}
    (h : Plan.hintedIn (Userset.plans f object relation children) ≠ []) :
    ∃ c ∈ children, (c.plan f object relation).hinted ≠ [] := by
  induction children with
  | nil => exact absurd rfl h
  | cons c cs ih =>
    by_cases hc : (c.plan f object relation).hinted = []
    · have hrest : Plan.hintedIn (Userset.plans f object relation cs) ≠ [] := by
        intro hnil
        apply h
        rw [Userset.plans, Plan.hintedIn, hc, hnil]
        rfl
      obtain ⟨d, hd, hne⟩ := ih hrest
      exact ⟨d, List.mem_cons_of_mem _ hd, hne⟩
    · exact ⟨c, List.mem_cons_self .., hc⟩

theorem holds_gotoUsersets {target : EntityRef} {X Y : Set Node} {subjects : List SubjectRef} :
    (∃ p ∈ gotoUsersets subjects, Plan.Holds target X Y p) ↔
      ∃ n : Node, SubjectRef.userset n.1 n.2 ∈ subjects ∧ n ∈ X := by
  simp only [gotoUsersets, List.mem_map, exists_exists_and_eq_and, Plan.holds_goto,
    mem_usersetNodes]

theorem holds_gotoSubjects {target : EntityRef} {X Y : Set Node} {computed : String}
    {subjects : List SubjectRef} :
    (∃ p ∈ gotoSubjects computed subjects, Plan.Holds target X Y p) ↔
      ∃ ref, SubjectRef.subject ref ∈ subjects ∧ (ref, computed) ∈ X := by
  simp only [gotoSubjects, List.mem_map, exists_exists_and_eq_and, Plan.holds_goto,
    mem_directRefs]

/-- What the children hold, one by one, is what their list holds. -/
theorem holds_plans_congr {target : EntityRef} {X Y : Set Node} {children : List Userset}
    (hc : ∀ c ∈ children, Plan.Holds target X Y (c.plan f object relation) ↔
      Plan.Holds target X Y (c.plan g object relation)) :
    ((∃ p ∈ Userset.plans f object relation children, Plan.Holds target X Y p) ↔
      ∃ p ∈ Userset.plans g object relation children, Plan.Holds target X Y p) ∧
    ((∀ p ∈ Userset.plans f object relation children, Plan.Holds target X Y p) ↔
      ∀ p ∈ Userset.plans g object relation children, Plan.Holds target X Y p) := by
  induction children with
  | nil => exact ⟨Iff.rfl, Iff.rfl⟩
  | cons c cs ih =>
    obtain ⟨hany, hall⟩ := ih fun d hd => hc d (List.mem_cons_of_mem _ hd)
    have hhead := hc c (List.mem_cons_self ..)
    simp only [Userset.plans, List.mem_cons, exists_eq_or_imp, forall_eq_or_imp, hhead, hany,
      hall, and_self]

/-- What a tree holds depends on which subjects the rows have, not on their order. -/
theorem holds_plan_congr {target : EntityRef} (h : ∀ r s, s ∈ f r ↔ s ∈ g r) (rewrite : Userset) :
    ∀ {X Y : Set Node}, Plan.Holds target X Y (rewrite.plan f object relation) ↔
      Plan.Holds target X Y (rewrite.plan g object relation) := by
  induction rewrite with
  | this =>
    intro X Y
    simp only [Userset.plan, Plan.holds_any, List.mem_cons, exists_eq_or_imp, Plan.holds_leaf,
      holds_gotoUsersets, mem_directRefs, h]
  | computedUserset rel => intro X Y; exact Iff.rfl
  | tupleToUserset tupleset computed =>
    intro X Y
    simp only [Userset.plan, Plan.holds_any, holds_gotoSubjects, h]
  | union children ih =>
    intro X Y
    rw [Userset.plan, Userset.plan, Plan.holds_any, Plan.holds_any]
    exact (holds_plans_congr fun c hc => ih c hc).1
  | intersection children ih =>
    intro X Y
    rw [Userset.plan, Userset.plan, Plan.holds_all, Plan.holds_all]
    exact (holds_plans_congr fun c hc => ih c hc).2
  | exclusion base subtract ihb ihs =>
    intro X Y
    rw [Userset.plan, Userset.plan, Plan.holds_diff, Plan.holds_diff, ihb, ihs]

theorem hintedIn_gotoUsersets (subjects : List SubjectRef) :
    Plan.hintedIn (gotoUsersets subjects) = usersetNodes subjects := by
  unfold gotoUsersets
  generalize usersetNodes subjects = nodes
  induction nodes with
  | nil => rfl
  | cons n ns ih => simp [Plan.hintedIn, Plan.hinted, ih]

theorem hintedIn_gotoSubjects (computed : String) (subjects : List SubjectRef) :
    Plan.hintedIn (gotoSubjects computed subjects) = [] := by
  unfold gotoSubjects
  generalize directRefs subjects = refs
  induction refs with
  | nil => rfl
  | cons r rs ih => simp [Plan.hintedIn, Plan.hinted, ih]

end PlanCongr

namespace EvaluationSnapshot

/-- The plan of every node. -/
def rule (snapshot : EvaluationSnapshot) (n : Node) : Plan Node EntityRef :=
  (snapshot.namespaces.rewritesFor n.1.type n.2).plan (snapshot.tuples.subjectsOf n.1) n.1 n.2

/-- The search the check walk makes for `target`.  The code asks the index only about nodes found
    in a tuple, which are writable. -/
def search (snapshot : EvaluationSnapshot) (target : EntityRef) : Search Node EntityRef where
  rule := snapshot.rule
  hint n :=
    if WritableNode n.1 n.2 then
      snapshot.memberships.bind fun view => view.depthOf n.1 n.2 target
    else none
  bound := maxUsersetDepth
  target := target

end EvaluationSnapshot

theorem indexedWithin_iff {snapshot : EvaluationSnapshot} {n : Node} {target : EntityRef}
    {depth : Nat} (hn : WritableNode n.1 n.2) : indexedWithin snapshot n.1 n.2 target depth = true ↔
      (snapshot.search target).Hinted n depth := by
  unfold indexedWithin Search.Hinted EvaluationSnapshot.search
  simp only [hn, if_true]
  cases h : snapshot.memberships.bind fun view => view.depthOf n.1 n.2 target <;> simp

/-! ## Walkable nodes -/

section Walkable

variable (resource : EntityRef)

/-- The nodes a walk from `resource` can meet: any relation of the resource itself, which need not
    be writable, and the nodes stored tuples lead to, which are. -/
def Walkable (n : Node) : Prop := n.1 = resource ∨ WritableNode n.1 n.2

instance (n : Node) : Decidable (Walkable resource n) := inferInstanceAs (Decidable (_ ∨ _))

variable {resource}

theorem Walkable.key_inj {n m : Node} (hn : Walkable resource n) (hm : Walkable resource m)
    (h : n.key = m.key) : n = m := by
  rcases hn with hn | hn
  · rcases hm with hm | hm
    · have ho : n.1 = m.1 := hn.trans hm.symm
      refine Prod.ext ho (nodeKey_relation_inj (o := n.1) ?_)
      rw [show nodeKey n.1 m.2 = m.key by rw [ho]; rfl]
      exact h
    · obtain ⟨ho, hr⟩ := nodeKey_inj hm h.symm
      exact Prod.ext ho.symm hr.symm
  · obtain ⟨ho, hr⟩ := nodeKey_inj hn h
    exact Prod.ext ho hr

theorem mem_map_key {n : Node} {V : List Node} (hn : Walkable resource n)
    (hV : ∀ m ∈ V, Walkable resource m) : n.key ∈ V.map Node.key ↔ n ∈ V := by
  rw [List.mem_map]
  constructor
  · rintro ⟨m, hm, hk⟩
    exact Walkable.key_inj (hV m hm) hn hk ▸ hm
  · exact fun h => ⟨n, h, rfl⟩

/-- A userset in a row is a writable node. -/
theorem writable_userset {snapshot : EvaluationSnapshot} {object : EntityRef} {relation : String}
    {n : Node} (h : n ∈ usersetNodes (snapshot.tuples.subjectsOf object relation)) :
    WritableNode n.1 n.2 :=
  writableSubject_node (TupleIndex.writable_of_mem (mem_usersetNodes.mp h))

/-- A direct subject in a row leads to a walkable node. -/
theorem Walkable.subject {snapshot : EvaluationSnapshot} {object ref : EntityRef}
    {relation computed : String}
    (h : SubjectRef.subject ref ∈ snapshot.tuples.subjectsOf object relation)
    (hc : isIdentifier computed = true) : Walkable resource (ref, computed) :=
  Or.inr ⟨writableSubject_ref (TupleIndex.writable_of_mem h), hc⟩

/-- A computed userset stays on a walkable object. -/
theorem Walkable.computed {object : EntityRef} {relation rel : String}
    (h : Walkable resource (object, relation)) (hr : isIdentifier rel = true) :
    Walkable resource (object, rel) :=
  h.imp id fun hw => ⟨hw.1, hr⟩

end Walkable

/-! ## The check walk is the search -/

/-- The walk a scope stands for. -/
def walkOf (s : Scope Node) : Walk := ⟨s.visited.map Node.key, s.cut⟩

@[simp] theorem walkOf_fresh : walkOf .fresh = Walk.fresh := rfl
@[simp] theorem walkOf_visited (s : Scope Node) :
    (walkOf s).visited = s.visited.map Node.key := rfl
@[simp] theorem walkOf_truncated (s : Scope Node) : (walkOf s).truncated = s.cut := rfl

section Runs

variable {resource target : EntityRef} {snapshot : EvaluationSnapshot}

/-- A scope of walkable nodes. -/
def InWalk (resource : EntityRef) (s : Scope Node) : Prop := ∀ m ∈ s.visited, Walkable resource m

theorem inWalk_fresh : InWalk resource .fresh := fun _ hm => absurd hm List.not_mem_nil

/-- The result of a call of the code is what a run of the search ends with. -/
def Simulates (snapshot : EvaluationSnapshot) (target resource : EntityRef) (d : Nat)
    (c : Call Node EntityRef) (s : Scope Node) (result : Option Grant × Walk) : Prop :=
  ∃ s' tr, result.2 = walkOf s' ∧ InWalk resource s' ∧
    (snapshot.search target).Runs d c s result.1.isSome s' tr

/-- The recursive call of the walk simulates the search at every walkable node. -/
def SimulatesNodes (snapshot : EvaluationSnapshot) (target resource : EntityRef)
    (recur : EntityRef → String → Nat → Walk → Derived) : Prop :=
  ∀ (n : Node) (d : Nat) (s : Scope Node) (result : Option Grant × Walk), Walkable resource n →
    InWalk resource s → recur n.1 n.2 d (walkOf s) = some result →
    Simulates snapshot target resource d (.node n) s result

variable {recur : EntityRef → String → Nat → Walk → Derived} {object : EntityRef}
  {relation : String} {depth : Nat}

theorem deriveUsersets_runs (hrec : SimulatesNodes snapshot target resource recur) :
    ∀ {subjects : List SubjectRef} {s : Scope Node} {result : Option Grant × Walk},
      (∀ n ∈ usersetNodes subjects, WritableNode n.1 n.2) → InWalk resource s →
      deriveUsersets recur snapshot target object relation depth subjects (walkOf s) =
        some result →
      Simulates snapshot target resource depth (.anyOf (gotoUsersets subjects)) s result := by
  intro subjects
  induction subjects with
  | nil =>
    intro s result _ hs h
    obtain rfl : (none, walkOf s) = result := by simpa [deriveUsersets] using h
    exact ⟨s, [], rfl, hs, .anyNil⟩
  | cons subject subjects ih =>
    intro s result hw hs h
    cases subject with
    | subject ref => exact ih hw hs h
    | userset ref rel =>
      have hwn : WritableNode ref rel := hw (ref, rel) (List.mem_cons_self ..)
      have hn : Walkable resource (ref, rel) := Or.inr hwn
      have hrest : ∀ n ∈ usersetNodes subjects, WritableNode n.1 n.2 :=
        fun n hn => hw n (List.mem_cons_of_mem _ hn)
      show Simulates snapshot target resource depth
        (.anyOf (.goto (ref, rel) 1 true :: gotoUsersets subjects)) s result
      rw [deriveUsersets] at h
      split_ifs at h with hi
      · obtain rfl := Option.some.inj h
        exact ⟨s, [], rfl, hs, .anyHit (.hinted ((indexedWithin_iff (n := (ref, rel)) hwn).mp hi))⟩
      · have hi' : true = true → ¬ (snapshot.search target).Hinted (ref, rel) (depth + 1) :=
          fun _ hh => hi ((indexedWithin_iff (n := (ref, rel)) hwn).mpr hh)
        obtain ⟨⟨sub, walk⟩, hsub, h⟩ := Option.bind_eq_some_iff.mp h
        obtain ⟨s₁, tr, rfl, hs₁, hrun⟩ := hrec (ref, rel) _ _ _ hn hs hsub
        cases sub with
        | some g =>
          obtain rfl := Option.some.inj h
          exact ⟨s₁, tr, rfl, hs₁, .anyHit (.goto hi' hrun)⟩
        | none =>
          obtain ⟨s₂, tr', hw₂, hs₂, hrun'⟩ := ih hrest hs₁ h
          exact ⟨s₂, _, hw₂, hs₂, .anyMiss (.goto hi' hrun) hrun'⟩

theorem deriveThis_runs (hrec : SimulatesNodes snapshot target resource recur) {s : Scope Node}
    {result : Option Grant × Walk} (hs : InWalk resource s)
    (h : deriveThis recur snapshot target object relation depth (walkOf s) = some result) :
    Simulates snapshot target resource depth
      (.tree (Userset.this.plan (snapshot.tuples.subjectsOf object) object relation)) s result := by
  rw [deriveThis] at h
  rw [Userset.plan]
  split at h
  · next hm =>
    obtain rfl := Option.some.inj h
    exact ⟨s, [], rfl, hs, .any (.anyHit (.leafHit (mem_directRefs.mpr hm)))⟩
  · next hm =>
    obtain ⟨s', tr, hw, hs', hrun⟩ :=
      deriveUsersets_runs hrec (fun n hn => writable_userset hn) hs h
    exact ⟨s', _, hw, hs', .any (.anyMiss (.leafMiss fun h => hm (mem_directRefs.mp h)) hrun)⟩

theorem deriveTupleset_runs (hrec : SimulatesNodes snapshot target resource recur)
    {tupleset computed : String} :
    ∀ {subjects : List SubjectRef} {s : Scope Node} {result : Option Grant × Walk},
      (∀ ref ∈ directRefs subjects, Walkable resource (ref, computed)) → InWalk resource s →
      deriveTupleset recur object depth tupleset computed subjects (walkOf s) = some result →
      Simulates snapshot target resource depth (.anyOf (gotoSubjects computed subjects)) s
        result := by
  intro subjects
  induction subjects with
  | nil =>
    intro s result _ hs h
    obtain rfl : (none, walkOf s) = result := by simpa [deriveTupleset] using h
    exact ⟨s, [], rfl, hs, .anyNil⟩
  | cons subject subjects ih =>
    intro s result hw hs h
    cases subject with
    | userset ref rel => exact ih hw hs h
    | subject ref =>
      have hn : Walkable resource (ref, computed) := hw _ (List.mem_cons_self ..)
      have hrest : ∀ r ∈ directRefs subjects, Walkable resource (r, computed) :=
        fun r hr => hw r (List.mem_cons_of_mem _ hr)
      show Simulates snapshot target resource depth
        (.anyOf (.goto (ref, computed) 1 false :: gotoSubjects computed subjects)) s result
      obtain ⟨⟨sub, walk⟩, hsub, h⟩ := Option.bind_eq_some_iff.mp h
      obtain ⟨s₁, tr, rfl, hs₁, hrun⟩ := hrec (ref, computed) _ _ _ hn hs hsub
      cases sub with
      | some g =>
        obtain rfl := Option.some.inj h
        exact ⟨s₁, tr, rfl, hs₁, .anyHit (.goto (by simp) hrun)⟩
      | none =>
        obtain ⟨s₂, tr', hw₂, hs₂, hrun'⟩ := ih hrest hs₁ h
        exact ⟨s₂, _, hw₂, hs₂, .anyMiss (.goto (by simp) hrun) hrun'⟩

/-- What a rewrite tree's own evaluation must simulate. -/
def SimulatesTree (snapshot : EvaluationSnapshot) (target resource object : EntityRef)
    (relation : String) (recur : EntityRef → String → Nat → Walk → Derived) (depth : Nat)
    (rewrite : Userset) : Prop :=
  ∀ (s : Scope Node) (result : Option Grant × Walk), InWalk resource s →
    deriveRewrite recur snapshot target object relation depth rewrite (walkOf s) = some result →
    Simulates snapshot target resource depth
      (.tree (rewrite.plan (snapshot.tuples.subjectsOf object) object relation)) s result

theorem deriveUnion_runs {children : List Userset}
    (h : ∀ c ∈ children, SimulatesTree snapshot target resource object relation recur depth c) :
    ∀ {s : Scope Node} {result : Option Grant × Walk}, InWalk resource s →
      deriveUnion recur snapshot target object relation depth children (walkOf s) = some result →
      Simulates snapshot target resource depth
        (.anyOf (Userset.plans (snapshot.tuples.subjectsOf object) object relation children)) s
        result := by
  induction children with
  | nil =>
    intro s result hs hd
    obtain rfl : (none, walkOf s) = result := by simpa [deriveUnion] using hd
    exact ⟨s, [], rfl, hs, .anyNil⟩
  | cons c cs ih =>
    intro s result hs hd
    rw [deriveUnion] at hd
    obtain ⟨⟨grant, walk⟩, hc, hd⟩ := Option.bind_eq_some_iff.mp hd
    obtain ⟨s₁, tr, rfl, hs₁, hrun⟩ := h c (List.mem_cons_self ..) _ _ hs hc
    cases grant with
    | some g =>
      obtain rfl := Option.some.inj hd
      exact ⟨s₁, tr, rfl, hs₁, .anyHit hrun⟩
    | none =>
      obtain ⟨s₂, tr', hw₂, hs₂, hrun'⟩ := ih (fun d hd => h d (by simp [hd])) hs₁ hd
      exact ⟨s₂, _, hw₂, hs₂, .anyMiss hrun hrun'⟩

theorem deriveIntersection_runs {children : List Userset}
    (h : ∀ c ∈ children, SimulatesTree snapshot target resource object relation recur depth c) :
    ∀ {s : Scope Node} {path : List String} {result : Option Grant × Walk}, InWalk resource s →
      deriveIntersection recur snapshot target object relation depth children path (walkOf s) =
        some result →
      Simulates snapshot target resource depth
        (.allOf (Userset.plans (snapshot.tuples.subjectsOf object) object relation children)) s
        result := by
  induction children with
  | nil =>
    intro s path result hs hd
    obtain rfl := Option.some.inj hd
    exact ⟨s, [], rfl, hs, .allNil⟩
  | cons c cs ih =>
    intro s path result hs hd
    rw [deriveIntersection] at hd
    obtain ⟨⟨grant, walk⟩, hc, hd⟩ := Option.bind_eq_some_iff.mp hd
    obtain ⟨s₁, tr, rfl, _, hrun⟩ := h c (List.mem_cons_self ..) .fresh _ inWalk_fresh hc
    by_cases hcut : s₁.cut = true
    · obtain rfl : _ = result := by simpa [hcut] using hd
      exact ⟨⟨s.visited, true⟩, _, rfl, hs, .allCut hrun hcut⟩
    · have hcut' : s₁.cut = false := by simpa using hcut
      cases grant with
      | none =>
        obtain rfl : _ = result := by simpa [hcut] using hd
        exact ⟨s, _, rfl, hs, .allMiss hrun hcut'⟩
      | some g =>
        obtain ⟨s₂, tr', hw₂, hs₂, hrun'⟩ :=
          ih (fun d hd => h d (by simp [hd])) hs (by simpa [hcut] using hd)
        exact ⟨s₂, _, hw₂, hs₂, .allHit hrun hcut' hrun'⟩

/-- One rewrite tree simulates its plan.  The induction is on the tree; validation supplies the
    identifiers that keep the nodes it goes to walkable. -/
theorem deriveRewrite_runs (hrec : SimulatesNodes snapshot target resource recur)
    (hobj : Walkable resource (object, relation)) {relations : List String}
    (rewrite : Userset) : ∀ {level : Nat}, validateUserset relations rewrite level = .ok () →
      SimulatesTree snapshot target resource object relation recur depth rewrite := by
  induction rewrite with
  | this => intro level _ s result hs h; exact deriveThis_runs hrec hs h
  | computedUserset rel =>
    intro level hv s result hs h
    have hn := hobj.computed (validateUserset_ok hv).2.1
    rw [deriveRewrite] at h
    obtain ⟨⟨sub, walk⟩, hsub, h⟩ := Option.bind_eq_some_iff.mp h
    obtain ⟨s₁, tr, rfl, hs₁, hrun⟩ := hrec (object, rel) _ _ _ hn hs hsub
    obtain rfl := Option.some.inj h
    rw [Userset.plan]
    exact ⟨s₁, tr, rfl, hs₁, .goto (by simp) (by simpa using hrun)⟩
  | tupleToUserset tupleset computed =>
    intro level hv s result hs h
    rw [deriveRewrite] at h
    rw [Userset.plan]
    obtain ⟨s', tr, hw, hs', hrun⟩ := deriveTupleset_runs hrec
      (fun ref hr => Walkable.subject (mem_directRefs.mp hr) (validateUserset_ok hv).2.2.1) hs h
    exact ⟨s', tr, hw, hs', .any hrun⟩
  | union children ih =>
    intro level hv s result hs h
    rw [deriveRewrite] at h
    rw [Userset.plan]
    obtain ⟨s', tr, hw, hs', hrun⟩ :=
      deriveUnion_runs (fun c hc => ih c hc ((validateUserset_ok hv).2.2 c hc)) hs h
    exact ⟨s', tr, hw, hs', .any hrun⟩
  | intersection children ih =>
    intro level hv s result hs h
    rw [deriveRewrite] at h
    rw [Userset.plan]
    obtain ⟨s', tr, hw, hs', hrun⟩ :=
      deriveIntersection_runs (fun c hc => ih c hc ((validateUserset_ok hv).2.2 c hc)) hs h
    exact ⟨s', tr, hw, hs', .all hrun⟩
  | exclusion base subtract ihb ihs =>
    intro level hv s result hs h
    obtain ⟨hvb, hvs⟩ := (validateUserset_ok hv).2
    rw [deriveRewrite] at h
    rw [Userset.plan]
    obtain ⟨⟨b, bw⟩, hb, h⟩ := Option.bind_eq_some_iff.mp h
    obtain ⟨s₁, tr₁, rfl, _, hrunb⟩ := ihb hvb .fresh _ inWalk_fresh hb
    by_cases hcut₁ : s₁.cut = true
    · obtain rfl : _ = result := by simpa [hcut₁] using h
      exact ⟨⟨s.visited, true⟩, _, rfl, hs, .baseCut hrunb hcut₁⟩
    have hcut₁' : s₁.cut = false := by simpa using hcut₁
    cases b with
    | none =>
      obtain rfl : _ = result := by simpa [hcut₁] using h
      exact ⟨s, _, rfl, hs, .baseMiss hrunb hcut₁'⟩
    | some b =>
      simp only [walkOf_truncated, hcut₁', Bool.false_eq_true, if_false] at h
      obtain ⟨⟨sb, sw⟩, hsub, h⟩ := Option.bind_eq_some_iff.mp h
      obtain ⟨s₂, tr₂, rfl, _, hruns⟩ := ihs hvs .fresh _ inWalk_fresh hsub
      by_cases hcut₂ : s₂.cut = true
      · obtain rfl : _ = result := by simpa [hcut₂] using h
        exact ⟨⟨s.visited, true⟩, _, rfl, hs, .subCut hrunb hcut₁' hruns hcut₂⟩
      have hcut₂' : s₂.cut = false := by simpa using hcut₂
      have hdiff := Search.Runs.sub (s := s) hrunb hcut₁' hruns hcut₂'
      cases sb with
      | none =>
        obtain rfl : _ = result := by simpa [hcut₂'] using h
        exact ⟨s, _, rfl, hs, hdiff⟩
      | some sb =>
        obtain rfl : _ = result := by simpa [hcut₂'] using h
        exact ⟨s, _, rfl, hs, hdiff⟩

theorem deriveFuel_runs (fuel : Nat) :
    SimulatesNodes snapshot target resource (deriveFuel snapshot target fuel) := by
  induction fuel with
  | zero => intro n d s result _ _ h; simp [deriveFuel] at h
  | succ fuel ih =>
    intro n d s result hn hs h
    rw [deriveFuel] at h
    split_ifs at h with hd hv
    · obtain rfl := Option.some.inj h
      exact ⟨⟨s.visited, true⟩, _, rfl, hs, .tooDeep hd⟩
    · obtain rfl := Option.some.inj h
      exact ⟨s, _, rfl, hs, .seen (Nat.not_lt.mp hd) ((mem_map_key hn hs).mp hv)⟩
    · obtain ⟨relations, hvalid⟩ := snapshot.namespaces.rewritesFor_valid n.1.type n.2
      have hs₀ : InWalk resource ⟨n :: s.visited, s.cut⟩ := by
        intro m hm
        rcases List.mem_cons.mp hm with rfl | hm
        · exact hn
        · exact hs m hm
      obtain ⟨s', tr, hw, hs', hrun⟩ := deriveRewrite_runs ih hn _ hvalid _ _ hs₀ h
      exact ⟨s', _, hw, hs', .visit (Nat.not_lt.mp hd)
        (fun hm => hv ((mem_map_key hn hs).mpr hm)) hrun⟩

/-- **The check walk is the search.** -/
theorem derive_runs {n : Node} (hn : Walkable resource n) {d : Nat} {s : Scope Node}
    (hs : InWalk resource s) :
    Simulates snapshot target resource d (.node n) s
      (derive snapshot target n.1 n.2 d (walkOf s)) :=
  deriveFuel_runs _ n d s _ hn hs (deriveFuel_derive ..)

end Runs

/-! ## Evaluation is the search from the required relations -/

/-- The nodes an evaluation starts from. -/
def AuthorizationQuery.roots (query : AuthorizationQuery) (required : List String) : List Node :=
  required.map fun relation => (query.resource, relation)

theorem evaluateRequired_checks (query : AuthorizationQuery) (snapshot : EvaluationSnapshot)
    (required : List String) : ∀ cut : Bool, ∃ g cut' tr,
      (snapshot.search query.subject).Checks (query.roots required) cut g cut' tr ∧
      (evaluateRequired query snapshot required cut).effect = (if g then .permit else .deny) ∧
      (g = false → evaluateRequired query snapshot required cut = defaultDeny cut') := by
  induction required with
  | nil => intro cut; exact ⟨false, cut, [], .none, rfl, fun _ => rfl⟩
  | cons relation required ih =>
    intro cut
    have hn : Walkable query.resource (query.resource, relation) := Or.inl rfl
    have hsim : Simulates snapshot query.subject query.resource 0 (.node (query.resource, relation))
        ⟨[], cut⟩ (derive snapshot query.subject query.resource relation 0 ⟨[], cut⟩) :=
      derive_runs hn (fun _ hm => absurd hm List.not_mem_nil)
    obtain ⟨s', tr, hw, _, hrun⟩ := hsim
    rw [evaluateRequired]
    cases hd : derive snapshot query.subject query.resource relation 0 ⟨[], cut⟩ with
    | mk grant walk =>
      simp only [hd] at hw hrun
      subst hw
      cases grant with
      | some grant => exact ⟨true, s'.cut, tr, .grant hrun, rfl, by simp⟩
      | none =>
        obtain ⟨g, cut', tr', hs, he, hdeny⟩ := ih s'.cut
        exact ⟨g, cut', tr ++ tr', .next hrun hs, he, hdeny⟩

theorem cites_defaultDeny (truncated : Bool) :
    (defaultDeny truncated).cites "walk_truncated" = truncated := by
  cases truncated <;> rfl

/-- **Evaluation is the search from the required relations.**  A refusal reports the cut. -/
theorem evaluate_checks {query : AuthorizationQuery} {snapshot : EvaluationSnapshot}
    (h : snapshot.OfOrg query.orgId) : ∃ g cut tr,
      (snapshot.search query.subject).Checks
        (query.roots (requiredRelations query snapshot.namespaces)) false g cut tr ∧
      (evaluate query snapshot).effect = (if g then .permit else .deny) ∧
      (g = false → (evaluate query snapshot).cites "walk_truncated" = cut) := by
  rw [evaluate_of_org h]
  split_ifs with he
  · rw [List.isEmpty_iff.mp he]
    exact ⟨false, false, [], .none, rfl, fun _ => rfl⟩
  · obtain ⟨g, cut, tr, hc, heff, hdeny⟩ := evaluateRequired_checks query snapshot
      (requiredRelations query snapshot.namespaces) false
    exact ⟨g, cut, tr, hc, heff, fun hg => by rw [hdeny hg, cites_defaultDeny]⟩

/-! ## The expand walk is the collecting search -/

/-- The members' references. -/
def refsOf (members : List FlatMember) : Set EntityRef := {ref | ∃ m ∈ members, m.ref = ref}

@[simp] theorem refsOf_nil : refsOf [] = ∅ := by
  ext ref
  simp [refsOf]

@[simp] theorem refsOf_cons (member : FlatMember) (members : List FlatMember) :
    refsOf (member :: members) = insert member.ref (refsOf members) := by
  ext ref
  simp [refsOf, eq_comm]

@[simp] theorem refsOf_append (members others : List FlatMember) :
    refsOf (members ++ others) = refsOf members ∪ refsOf others := by
  ext ref
  simp only [refsOf, List.mem_append, Set.mem_ofPred_eq, Set.mem_union]
  constructor
  · rintro ⟨m, hm | hm, rfl⟩
    · exact Or.inl ⟨m, hm, rfl⟩
    · exact Or.inr ⟨m, hm, rfl⟩
  · rintro (⟨m, hm, rfl⟩ | ⟨m, hm, rfl⟩)
    · exact ⟨m, Or.inl hm, rfl⟩
    · exact ⟨m, Or.inr hm, rfl⟩

theorem refsOf_meetMembers (members others : List FlatMember) :
    refsOf (meetMembers members others) = refsOf members ∩ refsOf others := by
  ext ref
  simp only [refsOf, meetMembers, List.mem_flatMap, Set.mem_ofPred_eq, Set.mem_inter_iff]
  constructor
  · rintro ⟨m, ⟨member, hmem, hm⟩, rfl⟩
    split at hm
    · next other hfind =>
      obtain rfl : m = ⟨member.ref, max member.depth other.depth⟩ := by simpa using hm
      exact ⟨⟨member, hmem, rfl⟩, other, List.mem_of_find?_eq_some hfind,
        by simpa using List.find?_some hfind⟩
    · simp at hm
  · rintro ⟨⟨member, hmem, rfl⟩, other, hother, href⟩
    cases hfind : others.find? fun o => o.ref = member.ref with
    | none => exact absurd (List.find?_eq_none.mp hfind other hother) (by simpa using href)
    | some o => exact ⟨⟨member.ref, max member.depth o.depth⟩, ⟨member, hmem, by simp [hfind]⟩, rfl⟩

theorem refsOf_dropMembers (base subtract : List FlatMember) :
    refsOf (dropMembers base subtract) = refsOf base \ refsOf subtract := by
  ext ref
  simp only [refsOf, dropMembers, List.mem_filter, Bool.not_eq_true', List.any_eq_false,
    decide_eq_true_eq, Set.mem_ofPred_eq, Set.mem_sdiff, not_exists, not_and]
  constructor
  · rintro ⟨m, ⟨hm, hnone⟩, rfl⟩
    exact ⟨⟨m, hm, rfl⟩, hnone⟩
  · rintro ⟨⟨m, hm, rfl⟩, hnone⟩
    exact ⟨m, ⟨hm, hnone⟩, rfl⟩

section Gathers

open Search (Gathers)

/-- The state of the code for a list of visited nodes. -/
def collectOf (V : List Node) (excluded : Bool) : Collect := ⟨V.map Node.key, excluded⟩

variable {resource : EntityRef} {snapshot : EvaluationSnapshot}

/-- The result of a call of the code is what the collecting search ends with. -/
def Collects (snapshot : EvaluationSnapshot) (resource : EntityRef) (d : Nat)
    (c : Call Node EntityRef) (V : List Node) (excluded : Bool)
    (result : List FlatMember × Collect) : Prop :=
  ∃ V' ex, result.2 = collectOf V' (excluded || ex) ∧ (∀ m ∈ V', Walkable resource m) ∧
    Gathers snapshot.rule maxUsersetDepth d c V (refsOf result.1) V' ex

/-- The recursive call of the walk is the collecting search at every walkable node. -/
def CollectsNodes (snapshot : EvaluationSnapshot) (resource : EntityRef)
    (recur : EntityRef → String → Nat → Collect → Collected) : Prop :=
  ∀ (n : Node) (d : Nat) (V : List Node) (excluded : Bool) (result : List FlatMember × Collect),
    Walkable resource n → (∀ m ∈ V, Walkable resource m) →
    recur n.1 n.2 d (collectOf V excluded) = some result →
    Collects snapshot resource d (.node n) V excluded result

variable {recur : EntityRef → String → Nat → Collect → Collected} {object : EntityRef}
  {relation : String} {depth : Nat}

/-- The loop meets direct subjects and usersets in row order; only the usersets touch the state,
    so it collects the direct subjects and what the usersets give. -/
theorem collectThis_gathers (hrec : CollectsNodes snapshot resource recur) :
    ∀ {subjects : List SubjectRef} {V : List Node} {excluded : Bool}
      {result : List FlatMember × Collect},
      (∀ n ∈ usersetNodes subjects, Walkable resource n) → (∀ m ∈ V, Walkable resource m) →
      collectThis recur depth subjects (collectOf V excluded) = some result →
      ∃ V' ex ns, result.2 = collectOf V' (excluded || ex) ∧ (∀ m ∈ V', Walkable resource m) ∧
        Gathers snapshot.rule maxUsersetDepth depth (.anyOf (gotoUsersets subjects)) V ns V' ex ∧
        refsOf result.1 = {ref | ref ∈ directRefs subjects} ∪ ns := by
  intro subjects
  induction subjects with
  | nil =>
    intro V excluded result _ hV h
    obtain rfl := Option.some.inj h
    exact ⟨V, false, ∅, by simp, hV, .anyNil, by simp [directRefs]⟩
  | cons subject subjects ih =>
    intro V excluded result hw hV h
    cases subject with
    | subject ref =>
      obtain ⟨⟨members, state⟩, hrest, h⟩ := Option.bind_eq_some_iff.mp h
      obtain rfl := Option.some.inj h
      obtain ⟨V', ex, ns, hst, hV', hg, hrefs⟩ := ih hw hV hrest
      refine ⟨V', ex, ns, hst, hV', hg, ?_⟩
      rw [refsOf_cons, hrefs, ← Set.insert_union]
      congr 1
      ext r
      simp [directRefs, eq_comm]
    | userset ref rel =>
      have hn : Walkable resource (ref, rel) := hw _ (List.mem_cons_self ..)
      obtain ⟨⟨sub, state⟩, hsub, h⟩ := Option.bind_eq_some_iff.mp h
      obtain ⟨V₁, ex₁, rfl, hV₁, hg₁⟩ := hrec (ref, rel) _ _ _ _ hn hV hsub
      obtain ⟨⟨members, state⟩, hrest, h⟩ := Option.bind_eq_some_iff.mp h
      obtain rfl := Option.some.inj h
      obtain ⟨V', ex₂, ns, hst, hV', hg₂, hrefs⟩ :=
        ih (fun n hn => hw n (List.mem_cons_of_mem _ hn)) hV₁ hrest
      refine ⟨V', ex₁ || ex₂, refsOf sub ∪ ns, ?_, hV', .anyCons (.goto hg₁) hg₂, ?_⟩
      · rw [← Bool.or_assoc]
        exact hst
      · rw [refsOf_append, hrefs, Set.union_left_comm]
        rfl

theorem collectTupleset_gathers (hrec : CollectsNodes snapshot resource recur)
    {computed : String} :
    ∀ {subjects : List SubjectRef} {V : List Node} {excluded : Bool}
      {result : List FlatMember × Collect},
      (∀ ref ∈ directRefs subjects, Walkable resource (ref, computed)) →
      (∀ m ∈ V, Walkable resource m) →
      collectTupleset recur depth computed subjects (collectOf V excluded) = some result →
      Collects snapshot resource depth (.anyOf (gotoSubjects computed subjects)) V excluded
        result := by
  intro subjects
  induction subjects with
  | nil =>
    intro V excluded result _ hV h
    obtain rfl := Option.some.inj h
    refine ⟨V, false, by simp, hV, ?_⟩
    rw [show refsOf ([], collectOf V excluded).1 = ∅ from refsOf_nil]
    exact .anyNil
  | cons subject subjects ih =>
    intro V excluded result hw hV h
    cases subject with
    | userset ref rel => exact ih hw hV h
    | subject ref =>
      have hn : Walkable resource (ref, computed) := hw _ (List.mem_cons_self ..)
      obtain ⟨⟨sub, state⟩, hsub, h⟩ := Option.bind_eq_some_iff.mp h
      obtain ⟨V₁, ex₁, rfl, hV₁, hg₁⟩ := hrec (ref, computed) _ _ _ _ hn hV hsub
      obtain ⟨⟨members, state⟩, hrest, h⟩ := Option.bind_eq_some_iff.mp h
      obtain rfl := Option.some.inj h
      obtain ⟨V', ex₂, hst, hV', hg₂⟩ :=
        ih (fun r hr => hw r (List.mem_cons_of_mem _ hr)) hV₁ hrest
      refine ⟨V', ex₁ || ex₂, ?_, hV', ?_⟩
      · rw [← Bool.or_assoc]
        exact hst
      · rw [refsOf_append]
        exact .anyCons (.goto hg₁) hg₂

/-- What a rewrite tree's own collection must be. -/
def CollectsTree (snapshot : EvaluationSnapshot) (resource object : EntityRef)
    (relation : String) (recur : EntityRef → String → Nat → Collect → Collected) (depth : Nat)
    (rewrite : Userset) : Prop :=
  ∀ (V : List Node) (excluded : Bool) (result : List FlatMember × Collect),
    (∀ m ∈ V, Walkable resource m) →
    collectRewrite recur snapshot object relation depth rewrite (collectOf V excluded) =
      some result →
    Collects snapshot resource depth
      (.tree (rewrite.plan (snapshot.tuples.subjectsOf object) object relation)) V excluded result

theorem noneVisited : ∀ m ∈ ([] : List Node), Walkable resource m :=
  fun _ hm => absurd hm List.not_mem_nil

theorem collectUnion_gathers {children : List Userset}
    (h : ∀ c ∈ children, CollectsTree snapshot resource object relation recur depth c) :
    ∀ {V : List Node} {excluded : Bool} {result : List FlatMember × Collect},
      (∀ m ∈ V, Walkable resource m) →
      collectUnion recur snapshot object relation depth children (collectOf V excluded) =
        some result →
      Collects snapshot resource depth
        (.anyOf (Userset.plans (snapshot.tuples.subjectsOf object) object relation children)) V
        excluded result := by
  induction children with
  | nil =>
    intro V excluded result hV hc
    obtain rfl := Option.some.inj hc
    refine ⟨V, false, by simp, hV, ?_⟩
    rw [show refsOf ([], collectOf V excluded).1 = ∅ from refsOf_nil]
    exact .anyNil
  | cons c cs ih =>
    intro V excluded result hV hc
    rw [collectUnion] at hc
    obtain ⟨⟨sub, state⟩, hsub, hc⟩ := Option.bind_eq_some_iff.mp hc
    obtain ⟨V₁, ex₁, rfl, hV₁, hg₁⟩ := h c (List.mem_cons_self ..) _ _ _ hV hsub
    obtain ⟨⟨members, state⟩, hrest, hc⟩ := Option.bind_eq_some_iff.mp hc
    obtain rfl := Option.some.inj hc
    obtain ⟨V', ex₂, hst, hV', hg₂⟩ := ih (fun d hd => h d (by simp [hd])) hV₁ hrest
    refine ⟨V', ex₁ || ex₂, ?_, hV', ?_⟩
    · rw [← Bool.or_assoc]
      exact hst
    · rw [refsOf_append]
      exact .anyCons hg₁ hg₂

/-- The accumulated members are met with every further operand; the first operand starts them. -/
theorem collectIntersection_gathers {children : List Userset}
    (h : ∀ c ∈ children, CollectsTree snapshot resource object relation recur depth c)
    {V : List Node} :
    ∀ {members : Option (List FlatMember)} {excluded : Bool}
      {result : List FlatMember × Collect},
      collectIntersection recur snapshot object relation depth children members
        (collectOf V excluded) = some result →
      ∃ ns ex, result.2 = collectOf V (excluded || ex) ∧
        Gathers snapshot.rule maxUsersetDepth depth
          (.allOf (Userset.plans (snapshot.tuples.subjectsOf object) object relation children)) V
          ns V ex ∧
        (∀ ms, members = some ms → refsOf result.1 = refsOf ms ∩ ns) ∧
        (members = none → children ≠ [] → refsOf result.1 = ns) := by
  induction children with
  | nil =>
    intro members excluded result hc
    obtain rfl := Option.some.inj hc
    exact ⟨Set.univ, false, by simp, .allNil, by rintro ms rfl; simp, by simp⟩
  | cons c cs ih =>
    intro members excluded result hc
    rw [collectIntersection] at hc
    obtain ⟨⟨sub, state⟩, hsub, hc⟩ := Option.bind_eq_some_iff.mp hc
    obtain ⟨V₁, ex₁, rfl, _, hg₁⟩ := h c (List.mem_cons_self ..) [] _ _ noneVisited hsub
    obtain ⟨ns, ex₂, hst, hg₂, hsome, _⟩ := ih (fun d hd => h d (by simp [hd])) hc
    refine ⟨refsOf sub ∩ ns, ex₁ || ex₂, ?_, .allCons hg₁ hg₂, ?_, ?_⟩
    · rw [← Bool.or_assoc]
      exact hst
    · rintro ms rfl
      rw [hsome _ rfl, refsOf_meetMembers, Set.inter_assoc]
    · rintro rfl _
      exact hsome _ rfl

/-- One rewrite tree collects its plan. -/
theorem collectRewrite_gathers (hrec : CollectsNodes snapshot resource recur)
    (hobj : Walkable resource (object, relation)) {relations : List String}
    (rewrite : Userset) : ∀ {level : Nat}, validateUserset relations rewrite level = .ok () →
      CollectsTree snapshot resource object relation recur depth rewrite := by
  induction rewrite with
  | this =>
    intro level _ V excluded result hV h
    obtain ⟨V', ex, ns, hst, hV', hg, hrefs⟩ :=
      collectThis_gathers hrec (fun n hn => Or.inr (writable_userset hn)) hV h
    refine ⟨V', ex, hst, hV', ?_⟩
    rw [Userset.plan, hrefs]
    exact .any (by simpa using Gathers.anyCons Gathers.leaf hg)
  | computedUserset rel =>
    intro level hv V excluded result hV h
    obtain ⟨V', ex, hst, hV', hg⟩ :=
      hrec (object, rel) _ _ _ _ (hobj.computed (validateUserset_ok hv).2.1) hV h
    rw [Userset.plan]
    exact ⟨V', ex, hst, hV', .goto (by simpa using hg)⟩
  | tupleToUserset tupleset computed =>
    intro level hv V excluded result hV h
    obtain ⟨V', ex, hst, hV', hg⟩ := collectTupleset_gathers hrec
      (fun ref hr => Walkable.subject (mem_directRefs.mp hr) (validateUserset_ok hv).2.2.1) hV h
    rw [Userset.plan]
    exact ⟨V', ex, hst, hV', .any hg⟩
  | union children ih =>
    intro level hv V excluded result hV h
    rw [collectRewrite] at h
    obtain ⟨V', ex, hst, hV', hg⟩ :=
      collectUnion_gathers (fun c hc => ih c hc ((validateUserset_ok hv).2.2 c hc)) hV h
    rw [Userset.plan]
    exact ⟨V', ex, hst, hV', .any hg⟩
  | intersection children ih =>
    intro level hv V excluded result hV h
    rw [collectRewrite] at h
    obtain ⟨ns, ex, hst, hg, _, hnone⟩ :=
      collectIntersection_gathers (fun c hc => ih c hc ((validateUserset_ok hv).2.2 c hc)) h
    rw [Userset.plan]
    refine ⟨V, ex, hst, hV, .all ?_⟩
    rw [hnone rfl (validateUserset_ok hv).2.1]
    exact hg
  | exclusion base subtract ihb ihs =>
    intro level hv V excluded result hV h
    obtain ⟨hvb, hvs⟩ := (validateUserset_ok hv).2
    rw [collectRewrite] at h
    obtain ⟨⟨b, bs⟩, hb, h⟩ := Option.bind_eq_some_iff.mp h
    obtain ⟨V₁, ex₁, rfl, _, hg₁⟩ := ihb hvb [] true _ noneVisited hb
    obtain ⟨⟨sb, ss⟩, hsub, h⟩ := Option.bind_eq_some_iff.mp h
    obtain ⟨V₂, ex₂, rfl, _, hg₂⟩ := ihs hvs [] _ _ noneVisited hsub
    obtain rfl := Option.some.inj h
    rw [Userset.plan]
    refine ⟨V, true, by simp [collectOf], hV, ?_⟩
    rw [refsOf_dropMembers]
    exact .diff hg₁ hg₂

theorem collectFuel_gathers (fuel : Nat) :
    CollectsNodes snapshot resource (collectFuel snapshot fuel) := by
  induction fuel with
  | zero => intro n d V excluded result _ _ h; simp [collectFuel] at h
  | succ fuel ih =>
    intro n d V excluded result hn hV h
    rw [collectFuel] at h
    split_ifs at h with hd hv
    · obtain rfl := Option.some.inj h
      exact ⟨V, false, by simp, hV, by simpa using Gathers.tooDeep hd⟩
    · obtain rfl := Option.some.inj h
      exact ⟨V, false, by simp, hV,
        by simpa using Gathers.seen (Nat.not_lt.mp hd) ((mem_map_key hn hV).mp hv)⟩
    · obtain ⟨relations, hvalid⟩ := snapshot.namespaces.rewritesFor_valid n.1.type n.2
      have hV₀ : ∀ m ∈ n :: V, Walkable resource m := by
        intro m hm
        rcases List.mem_cons.mp hm with rfl | hm
        · exact hn
        · exact hV m hm
      obtain ⟨V', ex, hst, hV', hg⟩ := collectRewrite_gathers ih hn _ hvalid _ _ _ hV₀ h
      exact ⟨V', ex, hst, hV', .visit (Nat.not_lt.mp hd)
        (fun hm => hv ((mem_map_key hn hV).mpr hm)) hg⟩

/-- **The expand walk is the collecting search.** -/
theorem collectMembers_gathers {n : Node} (hn : Walkable resource n) {d : Nat} {V : List Node}
    (hV : ∀ m ∈ V, Walkable resource m) (excluded : Bool) :
    Collects snapshot resource d (.node n) V excluded
      (collectMembers snapshot n.1 n.2 d (collectOf V excluded)) :=
  collectFuel_gathers _ n d V excluded _ hn hV (collectFuel_collectMembers ..)

end Gathers

end AccessCore
