/-
  Rewrite trees, namespace configs, actions and the namespace registry
  (`authz/domain/userset.ts`, `namespace-config.ts`, `action.ts`, `namespace-definition.ts`,
  `namespace-registry.ts`).

  A config gives every relation a rewrite tree over the other relations of the same type.
  `create` walks the graph of computed usersets depth first and refuses a cycle.  That check is
  what makes evaluation terminate: a computed userset is followed without spending depth, so only
  the order in which the walk finishes its relations bounds how often that can happen in a row.

  The crux is `rank_lt`: the finishing order of an accepted config ranks every relation strictly
  above the relations its tree computes.  It comes from one invariant of the walk (`Topological`),
  and the walk itself never runs out of fuel (`cycleWalk_total`), since each nested call puts one
  more key on the visiting stack.
-/
import AccessCore.Authz.Refs

namespace AccessCore

/-! ## Rewrite trees -/

/-- How the members of a relation are computed. -/
inductive Userset where
  | this
  | computedUserset (relation : String)
  | tupleToUserset (tupleset computedUserset : String)
  | union (children : List Userset)
  | intersection (children : List Userset)
  | exclusion (base subtract : Userset)
deriving Repr

def directUserset : Userset := .this

/-- Structural induction, with the hypothesis for every child. -/
@[elab_as_elim, induction_eliminator]
theorem Userset.induct {motive : Userset → Prop} (this : motive .this)
    (computedUserset : ∀ relation, motive (.computedUserset relation))
    (tupleToUserset : ∀ tupleset computed, motive (.tupleToUserset tupleset computed))
    (union : ∀ children, (∀ c ∈ children, motive c) → motive (.union children))
    (intersection : ∀ children, (∀ c ∈ children, motive c) → motive (.intersection children))
    (exclusion : ∀ base subtract, motive base → motive subtract →
      motive (.exclusion base subtract)) (u : Userset) : motive u :=
  Userset.rec (motive_1 := motive) (motive_2 := fun us => ∀ u ∈ us, motive u)
    this computedUserset tupleToUserset union intersection exclusion
    (fun _ hu => absurd hu List.not_mem_nil)
    (fun u us hu hus v hv => by
      rcases List.mem_cons.mp hv with rfl | hv
      · exact hu
      · exact hus v hv) u

mutual
/-- The relations a tree follows on the same object. -/
def computedUsersetTargets : Userset → List String
  | .this => []
  | .computedUserset relation => [relation]
  | .tupleToUserset _ _ => []
  | .union children => computedUsersetTargetsOf children
  | .intersection children => computedUsersetTargetsOf children
  | .exclusion base subtract => computedUsersetTargets base ++ computedUsersetTargets subtract
/-- `children.flatMap(computedUsersetTargets)`. -/
def computedUsersetTargetsOf : List Userset → List String
  | [] => []
  | child :: children => computedUsersetTargets child ++ computedUsersetTargetsOf children
end

theorem mem_computedUsersetTargetsOf {relation : String} {children : List Userset} :
    relation ∈ computedUsersetTargetsOf children ↔
      ∃ c ∈ children, relation ∈ computedUsersetTargets c := by
  induction children with
  | nil => simp [computedUsersetTargetsOf]
  | cons c cs ih => simp [computedUsersetTargetsOf, ih]

/-- A computed userset somewhere in a tree, at any depth and on either side of an exclusion, names a
    relation. -/
inductive Userset.Names : Userset → String → Prop where
  | computedUserset (relation : String) : Names (.computedUserset relation) relation
  | union {children : List Userset} {child : Userset} {relation : String}
      (hchild : child ∈ children) (h : Names child relation) : Names (.union children) relation
  | intersection {children : List Userset} {child : Userset} {relation : String}
      (hchild : child ∈ children) (h : Names child relation) :
        Names (.intersection children) relation
  | base {base subtract : Userset} {relation : String} (h : Names base relation) :
      Names (.exclusion base subtract) relation
  | subtract {base subtract : Userset} {relation : String} (h : Names subtract relation) :
      Names (.exclusion base subtract) relation

/-- The collection misses no computed userset, and adds none. -/
theorem mem_computedUsersetTargets {tree : Userset} {relation : String} :
    relation ∈ computedUsersetTargets tree ↔ tree.Names relation := by
  constructor
  · intro h
    induction tree with
    | this => cases h
    | computedUserset named =>
      obtain rfl := List.mem_singleton.mp h
      exact .computedUserset relation
    | tupleToUserset tupleset computed => cases h
    | union children ih =>
      obtain ⟨child, hchild, hmem⟩ := mem_computedUsersetTargetsOf.mp h
      exact .union hchild (ih child hchild hmem)
    | intersection children ih =>
      obtain ⟨child, hchild, hmem⟩ := mem_computedUsersetTargetsOf.mp h
      exact .intersection hchild (ih child hchild hmem)
    | exclusion base subtract ihbase ihsubtract =>
      rcases List.mem_append.mp h with h | h
      · exact .base (ihbase h)
      · exact .subtract (ihsubtract h)
  · intro h
    induction h with
    | computedUserset relation => exact List.mem_singleton_self relation
    | union hchild _ ih => exact mem_computedUsersetTargetsOf.mpr ⟨_, hchild, ih⟩
    | intersection hchild _ ih => exact mem_computedUsersetTargetsOf.mpr ⟨_, hchild, ih⟩
    | base _ ih => exact List.mem_append_left _ ih
    | subtract _ ih => exact List.mem_append_right _ ih

/-! ## Validation of one tree -/

inductive NamespaceConfigError where
  | emptyRelations
  | invalidRelation
  | duplicateRelation
  | invalidVerb
  | emptyBinding
  | unknownRelation
  | unknownRewriteRelation
  | invalidRewrite
  | rewriteTooDeep
  | cyclicComputedUserset
deriving DecidableEq, Repr

/-- `MAX_REWRITE_DEPTH`. -/
def maxRewriteDepth : Nat := 32

mutual
def validateUserset (relations : List String) (node : Userset) (depth : Nat) :
    Except NamespaceConfigError Unit :=
  if maxRewriteDepth < depth then .error .rewriteTooDeep
  else match node with
    | .this => .ok ()
    | .computedUserset relation =>
      if !isIdentifier relation then .error .invalidRewrite
      else if relation ∉ relations then .error .unknownRewriteRelation
      else .ok ()
    | .tupleToUserset tupleset computed =>
      if !isIdentifier tupleset || !isIdentifier computed then .error .invalidRewrite
      else if tupleset ∉ relations then .error .unknownRewriteRelation
      else .ok ()
    | .union children =>
      if children.isEmpty then .error .invalidRewrite
      else validateChildren relations children (depth + 1)
    | .intersection children =>
      if children.isEmpty then .error .invalidRewrite
      else validateChildren relations children (depth + 1)
    | .exclusion base subtract =>
      match validateUserset relations base (depth + 1) with
      | .ok () => validateUserset relations subtract (depth + 1)
      | .error e => .error e
/-- The children in order, stopping at the first error. -/
def validateChildren (relations : List String) (children : List Userset) (depth : Nat) :
    Except NamespaceConfigError Unit :=
  match children with
  | [] => .ok ()
  | child :: children =>
    match validateUserset relations child depth with
    | .ok () => validateChildren relations children depth
    | .error e => .error e
end

theorem validateChildren_ok {relations : List String} {children : List Userset} {depth : Nat}
    (h : validateChildren relations children depth = .ok ()) :
    ∀ c ∈ children, validateUserset relations c depth = .ok () := by
  induction children with
  | nil => simp
  | cons c cs ih =>
    rw [validateChildren] at h
    split at h
    · next hc => simpa [hc] using ih h
    · simp at h

/-- What acceptance says about the parts of a tree. -/
def Userset.Accepted (relations : List String) (depth : Nat) : Userset → Prop
  | .this => True
  | .computedUserset relation => isIdentifier relation = true ∧ relation ∈ relations
  | .tupleToUserset tupleset computed =>
    isIdentifier tupleset = true ∧ isIdentifier computed = true ∧ tupleset ∈ relations
  | .union children =>
    children ≠ [] ∧ ∀ c ∈ children, validateUserset relations c (depth + 1) = .ok ()
  | .intersection children =>
    children ≠ [] ∧ ∀ c ∈ children, validateUserset relations c (depth + 1) = .ok ()
  | .exclusion base subtract =>
    validateUserset relations base (depth + 1) = .ok () ∧
      validateUserset relations subtract (depth + 1) = .ok ()

theorem validateUserset_ok {relations : List String} {node : Userset} {depth : Nat}
    (h : validateUserset relations node depth = .ok ()) :
    depth ≤ maxRewriteDepth ∧ node.Accepted relations depth := by
  have hd : ¬ maxRewriteDepth < depth := by
    intro hd
    cases node <;> simp [validateUserset, hd] at h
  refine ⟨Nat.not_lt.mp hd, ?_⟩
  cases node with
  | this => trivial
  | computedUserset r =>
    rw [validateUserset, if_neg hd] at h
    split_ifs at h with hi hr
    exact ⟨by simpa using hi, by simpa using hr⟩
  | tupleToUserset t c =>
    rw [validateUserset, if_neg hd] at h
    split_ifs at h with hi hr
    have hi' : isIdentifier t = true ∧ isIdentifier c = true := by simpa using hi
    exact ⟨hi'.1, hi'.2, by simpa using hr⟩
  | union cs =>
    rw [validateUserset, if_neg hd] at h
    split_ifs at h with he
    exact ⟨by simpa using he, validateChildren_ok h⟩
  | intersection cs =>
    rw [validateUserset, if_neg hd] at h
    split_ifs at h with he
    exact ⟨by simpa using he, validateChildren_ok h⟩
  | exclusion b s =>
    rw [validateUserset, if_neg hd] at h
    split at h
    · next hb => exact ⟨hb, h⟩
    · simp at h

/-! ## The cycle check -/

/-- The relations each rewritten relation follows on the same object. -/
abbrev ComputedEdges := OrderedMap String (List String)

namespace ComputedEdges

def targetsOf (edges : ComputedEdges) (relation : String) : List String :=
  (OrderedMap.get? edges relation).getD []

/-- What one call of `walk` ends with: a cycle, or the relations finished so far, latest first. -/
inductive Outcome where
  | cycle
  | finished (done : List String)
deriving DecidableEq, Repr

/-- The loop over targets; the first cycle ends it. -/
def walkEach (walk : List String → String → Option Outcome) (done : List String) :
    List String → Option Outcome
  | [] => some (.finished done)
  | target :: targets =>
    match walk done target with
    | some (.finished done) => walkEach walk done targets
    | outcome => outcome

/-- `walk`, with the stack of relations being visited; `none` is out of fuel. -/
def cycleWalk (edges : ComputedEdges) :
    Nat → List String → List String → String → Option Outcome
  | 0, _, _, _ => none
  | fuel + 1, visiting, done, relation =>
    if relation ∈ visiting then some .cycle
    else if relation ∈ done then some (.finished done)
    else
      match walkEach (cycleWalk edges fuel (relation :: visiting)) done
        (targetsOf edges relation) with
      | some (.finished done) => some (.finished (relation :: done))
      | outcome => outcome

/-- The outcome of the walk from every key in turn. -/
def search (edges : ComputedEdges) : Option Outcome :=
  walkEach (cycleWalk edges (edges.length + 1) []) [] (edges.map (·.1))

def hasComputedUsersetCycle (edges : ComputedEdges) : Bool :=
  match search edges with
  | some (.finished _) => false
  | _ => true

/-- The keys not on the visiting stack. -/
def fresh (edges : ComputedEdges) (visiting : List String) : List String :=
  (edges.map (·.1)).filter fun key => key ∉ visiting

theorem walkEach_total {walk : List String → String → Option Outcome} {targets : List String}
    (h : ∀ done, ∀ t ∈ targets, (walk done t).isSome) :
    ∀ done, (walkEach walk done targets).isSome := by
  induction targets with
  | nil => intro done; rfl
  | cons t ts ih =>
    intro done
    have ht := h done t (List.mem_cons_self ..)
    rw [walkEach]
    split
    · exact ih (fun d u hu => h d u (List.mem_cons_of_mem _ hu)) _
    · exact ht

theorem fresh_lt {edges : ComputedEdges} {visiting : List String} {relation : String}
    (hkey : relation ∈ edges.map (·.1)) (hn : relation ∉ visiting) :
    (fresh edges (relation :: visiting)).length < (fresh edges visiting).length := by
  have hsub : (fresh edges (relation :: visiting)) =
      (fresh edges visiting).filter fun key => key ≠ relation := by
    simp only [fresh, List.filter_filter]
    congr 1
    funext key
    simp
  rw [hsub]
  refine lt_of_le_of_ne (List.length_filter_le _ _) fun heq => ?_
  have hall := List.length_filter_eq_length_iff.mp heq relation
    (List.mem_filter.mpr ⟨hkey, by simpa using hn⟩)
  simp at hall

/-- The walk needs no more fuel than there are keys off its stack: only a key has targets. -/
theorem cycleWalk_total {edges : ComputedEdges} : ∀ {fuel : Nat} {visiting : List String},
    (fresh edges visiting).length < fuel →
      ∀ done relation, (cycleWalk edges fuel visiting done relation).isSome := by
  intro fuel
  induction fuel with
  | zero => intro visiting h; simp at h
  | succ fuel ih =>
    intro visiting h done relation
    rw [cycleWalk]
    split_ifs with hv hd
    · rfl
    · rfl
    · have heach : (walkEach (cycleWalk edges fuel (relation :: visiting)) done
          (targetsOf edges relation)).isSome := by
        by_cases hkey : relation ∈ edges.map (·.1)
        · have := fresh_lt hkey hv
          exact walkEach_total (fun d t _ => ih (by omega) d t) done
        · have hnone : targetsOf edges relation = [] := by
            cases hg : OrderedMap.get? edges relation with
            | none => simp [targetsOf, hg]
            | some ts =>
              exact absurd (List.mem_map.mpr ⟨_, OrderedMap.mem_of_get? hg, rfl⟩) hkey
          rw [hnone]
          rfl
      split
      · rfl
      · exact heach

theorem search_total (edges : ComputedEdges) : (search edges).isSome := by
  refine walkEach_total (fun done relation _ => cycleWalk_total ?_ done relation) _
  have := List.length_filter_le (fun key => decide (key ∉ ([] : List String)))
    (edges.map (·.1))
  simp only [fresh, List.length_map] at this ⊢
  omega

/-- Every relation of the list has all its targets further down the list. -/
def Topological (edges : ComputedEdges) : List String → Prop
  | [] => True
  | relation :: done => (∀ t ∈ targetsOf edges relation, t ∈ done) ∧ Topological edges done

/-- What a finished walk adds: the order stays topological, nothing finished is lost, and the
    relations asked for are finished. -/
structure Extends (edges : ComputedEdges) (done done' : List String) (asked : List String) :
    Prop where
  topological : Topological edges done → Topological edges done'
  kept : done ⊆ done'
  asked : asked ⊆ done'

theorem walkEach_extends {edges : ComputedEdges} {walk : List String → String → Option Outcome}
    (h : ∀ done done' t, walk done t = some (.finished done') → Extends edges done done' [t]) :
    ∀ {targets done done'}, walkEach walk done targets = some (.finished done') →
      Extends edges done done' targets := by
  intro targets
  induction targets with
  | nil =>
    intro done done' hw
    obtain rfl : done = done' := by simpa [walkEach] using hw
    exact ⟨id, List.Subset.refl _, List.nil_subset _⟩
  | cons t ts ih =>
    intro done done' hw
    rw [walkEach] at hw
    split at hw
    · next d hd =>
      have h₁ := h _ _ _ hd
      have h₂ := ih hw
      exact ⟨h₂.topological ∘ h₁.topological, List.Subset.trans h₁.kept h₂.kept,
        List.cons_subset.mpr ⟨h₂.kept (h₁.asked (List.mem_cons_self ..)), h₂.asked⟩⟩
    · next hne => exact absurd hw (hne _)

theorem cycleWalk_extends (edges : ComputedEdges) : ∀ {fuel : Nat} {visiting : List String}
    (done done' : List String) (relation : String),
    cycleWalk edges fuel visiting done relation = some (.finished done') →
      Extends edges done done' [relation] := by
  intro fuel
  induction fuel with
  | zero => intro visiting done done' relation h; simp [cycleWalk] at h
  | succ fuel ih =>
    intro visiting done done' relation h
    rw [cycleWalk] at h
    split_ifs at h with hv hd
    · simp at h
    · obtain rfl : done = done' := by simpa using h
      exact ⟨id, List.Subset.refl _, by simpa using hd⟩
    · split at h
      · next d hw =>
        obtain rfl : relation :: d = done' := by simpa using h
        have he := walkEach_extends (fun a b t => ih a b t) hw
        exact ⟨fun ht => ⟨fun t htm => he.asked htm, he.topological ht⟩,
          List.Subset.trans he.kept (List.subset_cons_self ..), by simp⟩
      · next hne => exact absurd h (hne _)

/-- The position of a relation in the finishing order, counted from the first to finish. -/
def rankIn : List String → String → Nat
  | [], _ => 0
  | r :: done, relation =>
    if relation ∈ done then rankIn done relation
    else if relation = r then done.length + 1 else 0

theorem rankIn_le (relation : String) : ∀ done : List String, rankIn done relation ≤ done.length
  | [] => Nat.le_refl 0
  | r :: done => by
    have := rankIn_le relation done
    rw [rankIn]
    split_ifs
    · exact Nat.le_succ_of_le this
    · exact Nat.le_refl _
    · exact Nat.zero_le _

/-- A finished relation has its targets finished too. -/
theorem Topological.closed {edges : ComputedEdges} {relation target : String} :
    ∀ {done : List String}, Topological edges done → relation ∈ done →
      target ∈ targetsOf edges relation → target ∈ done
  | [], _, hr, _ => absurd hr List.not_mem_nil
  | r :: done, ⟨htargets, htop⟩, hr, ht => by
    rcases List.mem_cons.mp hr with rfl | hr
    · exact List.mem_cons_of_mem _ (htargets _ ht)
    · exact List.mem_cons_of_mem _ (htop.closed hr ht)

/-- In a topological order every target ranks below its relation. -/
theorem rankIn_lt {edges : ComputedEdges} {relation target : String} :
    ∀ {done : List String}, Topological edges done → relation ∈ done →
      target ∈ targetsOf edges relation → rankIn done target < rankIn done relation
  | [], _, hr, _ => absurd hr List.not_mem_nil
  | r :: done, ⟨htargets, htop⟩, hr, ht => by
    by_cases hd : relation ∈ done
    · simpa [rankIn, hd, htop.closed hd ht] using rankIn_lt htop hd ht
    · obtain rfl : relation = r := by simpa [hd] using hr
      have := rankIn_le target done
      simp only [rankIn, htargets _ ht, hd, if_true, if_false]
      omega

/-! ### The check is exact -/

/-- An edge of the graph that is walked. -/
def Edge (edges : ComputedEdges) (relation target : String) : Prop :=
  target ∈ targetsOf edges relation

def HasCycle (edges : ComputedEdges) : Prop :=
  ∃ relation, Relation.TransGen (Edge edges) relation relation

theorem walkEach_cycle {walk : List String → String → Option Outcome} :
    ∀ {targets done}, walkEach walk done targets = some .cycle →
      ∃ t ∈ targets, ∃ done, walk done t = some .cycle := by
  intro targets
  induction targets with
  | nil => intro done h; cases h
  | cons t ts ih =>
    intro done h
    rw [walkEach] at h
    split at h
    · next d _ =>
      obtain ⟨u, hu, done', hwalk⟩ := ih h
      exact ⟨u, List.mem_cons_of_mem _ hu, done', hwalk⟩
    · exact ⟨t, List.mem_cons_self .., done, h⟩

/-- The relations being visited lead to the one that is walked, so meeting one of them again closes
    a cycle. -/
theorem cycleWalk_cycle (edges : ComputedEdges) : ∀ {fuel : Nat} {visiting : List String}
    {done : List String} {relation : String},
    (∀ v ∈ visiting, Relation.TransGen (Edge edges) v relation) →
      cycleWalk edges fuel visiting done relation = some .cycle → HasCycle edges := by
  intro fuel
  induction fuel with
  | zero => intro visiting done relation _ h; cases h
  | succ fuel ih =>
    intro visiting done relation hvisiting h
    rw [cycleWalk] at h
    split_ifs at h with hv hd
    · exact ⟨relation, hvisiting relation hv⟩
    · cases h
    · split at h
      · cases h
      · obtain ⟨target, ht, done', hwalk⟩ := walkEach_cycle h
        have hedge : Relation.TransGen (Edge edges) relation target := .single ht
        refine ih (fun v hv' => ?_) hwalk
        rcases List.mem_cons.mp hv' with rfl | hv'
        · exact hedge
        · exact (hvisiting v hv').trans hedge

/-- A search that finishes has ranked every relation above its targets. -/
theorem not_hasCycle_of_finished {edges : ComputedEdges} {done : List String}
    (h : search edges = some (.finished done)) : ¬ HasCycle edges := by
  rintro ⟨relation, hcycle⟩
  have hext := walkEach_extends (fun a b t => cycleWalk_extends edges a b t) h
  have hlt : ∀ r t, Edge edges r t → rankIn done t < rankIn done r := by
    intro r t ht
    refine rankIn_lt (hext.topological trivial) (hext.asked ?_) ht
    -- only a key has targets
    cases hg : OrderedMap.get? edges r with
    | none => simp [Edge, targetsOf, hg] at ht
    | some ts => exact List.mem_map.mpr ⟨_, OrderedMap.mem_of_get? hg, rfl⟩
  have hdescends : ∀ {r t}, Relation.TransGen (Edge edges) r t → rankIn done t < rankIn done r := by
    intro r t hreach
    induction hreach with
    | single hedge => exact hlt _ _ hedge
    | tail _ hedge ih => exact Nat.lt_trans (hlt _ _ hedge) ih
  exact absurd (hdescends hcycle) (Nat.lt_irrefl _)

/-- **The cycle check is exact.** -/
theorem hasComputedUsersetCycle_iff (edges : ComputedEdges) :
    hasComputedUsersetCycle edges = true ↔ HasCycle edges := by
  unfold hasComputedUsersetCycle
  cases hsearch : search edges with
  | none =>
    have htotal := search_total edges
    rw [hsearch] at htotal
    cases htotal
  | some outcome =>
    cases outcome with
    | cycle =>
      obtain ⟨relation, _, done, hwalk⟩ := walkEach_cycle hsearch
      have hcycle : HasCycle edges :=
        cycleWalk_cycle edges (fun v hv => absurd hv List.not_mem_nil) hwalk
      exact ⟨fun _ => hcycle, fun _ => rfl⟩
    | finished done => exact ⟨nofun, fun hcycle => absurd hcycle (not_hasCycle_of_finished hsearch)⟩

end ComputedEdges

/-! ## Namespace configs -/

/-- `NamespaceConfigData`; the records of the source as their entries. -/
structure NamespaceConfigData where
  relations : List String
  actions : List (String × List String)
  rewrites : List (String × Userset)

/-- The three private maps of a config. -/
structure NamespaceMaps where
  relationSet : List String
  actionMap : OrderedMap String (List String)
  rewriteMap : OrderedMap String Userset

/-- The loop over `data.relations`. -/
def bindRelations (relationSet : List String) :
    List String → Except NamespaceConfigError (List String)
  | [] => .ok relationSet
  | relation :: relations =>
    if !isIdentifier relation then .error .invalidRelation
    else if relation ∈ relationSet then .error .duplicateRelation
    else bindRelations (relationSet ++ [relation]) relations

/-- `[...new Set(relations)]`: the first occurrence of each. -/
def distinct (relations : List String) : List String :=
  relations.foldl (fun seen r => if r ∈ seen then seen else seen ++ [r]) []

/-- The loop over `data.actions`. -/
def bindActions (relationSet : List String) (actionMap : OrderedMap String (List String)) :
    List (String × List String) → Except NamespaceConfigError (OrderedMap String (List String))
  | [] => .ok actionMap
  | (verb, relations) :: actions =>
    if !isIdentifier verb then .error .invalidVerb
    else if relations.isEmpty then .error .emptyBinding
    else if relations.any fun r => r ∉ relationSet then .error .unknownRelation
    else bindActions relationSet (OrderedMap.set actionMap verb (distinct relations)) actions

/-- The loop over `data.rewrites`. -/
def bindRewrites (relationSet : List String) (rewriteMap : OrderedMap String Userset) :
    List (String × Userset) → Except NamespaceConfigError (OrderedMap String Userset)
  | [] => .ok rewriteMap
  | (relation, tree) :: rewrites =>
    if relation ∉ relationSet then .error .unknownRewriteRelation
    else
      match validateUserset relationSet tree 0 with
      | .error e => .error e
      | .ok () => bindRewrites relationSet (OrderedMap.set rewriteMap relation tree) rewrites

/-- The edges the cycle check walks: set alongside `rewriteMap`, key by key. -/
def computedEdges (rewriteMap : OrderedMap String Userset) : ComputedEdges :=
  rewriteMap.map fun e => (e.1, computedUsersetTargets e.2)

/-- The body of `NamespaceConfig.create`. -/
def NamespaceMaps.create (data : NamespaceConfigData) :
    Except NamespaceConfigError NamespaceMaps := do
  failIf data.relations.isEmpty .emptyRelations
  let relationSet ← bindRelations [] data.relations
  let actionMap ← bindActions relationSet [] data.actions
  let rewriteMap ← bindRewrites relationSet [] data.rewrites
  failIf (ComputedEdges.hasComputedUsersetCycle (computedEdges rewriteMap))
    .cyclicComputedUserset
  return ⟨relationSet, actionMap, rewriteMap⟩

/-- A namespace config.  The constructor of the source is private and its maps always come from
    data `create` accepted, at first hand or read back from the store; `created` says so. -/
structure NamespaceConfig extends NamespaceMaps where
  created : ∃ data, NamespaceMaps.create data = .ok toNamespaceMaps

namespace NamespaceConfig

def create (data : NamespaceConfigData) : Except NamespaceConfigError NamespaceConfig :=
  match h : NamespaceMaps.create data with
  | .ok maps => .ok ⟨maps, data, h⟩
  | .error e => .error e

/-- `fromData`: read back from the store, which holds only data that `create` accepted. -/
def fromData (data : NamespaceConfigData) (accepted : (NamespaceMaps.create data).isOk = true) :
    NamespaceConfig :=
  match h : NamespaceMaps.create data, accepted with
  | .ok maps, _ => ⟨maps, data, h⟩

def requiredRelationsForVerb (config : NamespaceConfig) (verb : String) : List String :=
  (OrderedMap.get? config.actionMap verb).getD []

def rewritesFor (config : NamespaceConfig) (relation : String) : Userset :=
  (OrderedMap.get? config.rewriteMap relation).getD directUserset

end NamespaceConfig

/-! ## What acceptance guarantees -/

theorem bindRewrites_valid {relationSet : List String} :
    ∀ {rewrites : List (String × Userset)} {rewriteMap result : OrderedMap String Userset},
      (∀ e ∈ rewriteMap, validateUserset relationSet e.2 0 = .ok ()) →
      bindRewrites relationSet rewriteMap rewrites = .ok result →
      ∀ e ∈ result, validateUserset relationSet e.2 0 = .ok () := by
  intro rewrites
  induction rewrites with
  | nil =>
    intro rewriteMap result hm h
    obtain rfl : rewriteMap = result := by simpa [bindRewrites] using h
    exact hm
  | cons rw rws ih =>
    intro rewriteMap result hm h
    obtain ⟨relation, tree⟩ := rw
    rw [bindRewrites] at h
    split_ifs at h with hr
    split at h
    · simp at h
    · next hv =>
      refine ih (fun e he => ?_) h
      rcases OrderedMap.mem_set he with he | rfl
      · exact hm e he
      · exact hv

/-- The four stages of an accepted `create`. -/
theorem NamespaceMaps.create_ok {data : NamespaceConfigData} {maps : NamespaceMaps}
    (h : create data = .ok maps) :
    data.relations ≠ [] ∧ bindRelations [] data.relations = .ok maps.relationSet ∧
      bindActions maps.relationSet [] data.actions = .ok maps.actionMap ∧
      bindRewrites maps.relationSet [] data.rewrites = .ok maps.rewriteMap ∧
      ComputedEdges.hasComputedUsersetCycle (computedEdges maps.rewriteMap) = false := by
  obtain ⟨_, hne, h⟩ := bind_eq_ok h
  obtain ⟨relationSet, hrel, h⟩ := bind_eq_ok h
  obtain ⟨actionMap, hact, h⟩ := bind_eq_ok h
  obtain ⟨rewriteMap, hrw, h⟩ := bind_eq_ok h
  obtain ⟨_, hc, h⟩ := bind_eq_ok h
  obtain rfl : ⟨relationSet, actionMap, rewriteMap⟩ = maps := by simpa [pure, Except.pure] using h
  exact ⟨by simpa using failIf_ok hne, hrel, hact, hrw, failIf_ok hc⟩

namespace NamespaceConfig

/-- The tree of any relation passed validation. -/
theorem rewritesFor_valid (config : NamespaceConfig) (relation : String) :
    validateUserset config.relationSet (config.rewritesFor relation) 0 = .ok () := by
  obtain ⟨data, h⟩ := config.created
  obtain ⟨_, _, _, hrw, _⟩ := NamespaceMaps.create_ok h
  unfold rewritesFor
  cases hg : OrderedMap.get? config.rewriteMap relation with
  | none => simp [validateUserset, directUserset, maxRewriteDepth]
  | some tree =>
    exact bindRewrites_valid (fun e he => absurd he List.not_mem_nil) hrw _
      (OrderedMap.mem_of_get? hg)

/-- The order in which the cycle check finished the relations of the config. -/
def order (config : NamespaceConfig) : List String :=
  match ComputedEdges.search (computedEdges config.rewriteMap) with
  | some (.finished done) => done
  | _ => []

/-- How many computed usersets can be followed in a row from a relation. -/
def rank (config : NamespaceConfig) (relation : String) : Nat :=
  ComputedEdges.rankIn config.order relation

theorem rank_le (config : NamespaceConfig) (relation : String) :
    config.rank relation ≤ config.order.length :=
  ComputedEdges.rankIn_le _ _

theorem search_eq (config : NamespaceConfig) :
    ComputedEdges.search (computedEdges config.rewriteMap) = some (.finished config.order) := by
  obtain ⟨data, h⟩ := config.created
  obtain ⟨_, _, _, _, hc⟩ := NamespaceMaps.create_ok h
  unfold ComputedEdges.hasComputedUsersetCycle at hc
  unfold order
  split at hc
  · next done hs => simp [hs]
  · simp at hc

theorem targetsOf_computedEdges (rewriteMap : OrderedMap String Userset) (relation : String) :
    ComputedEdges.targetsOf (computedEdges rewriteMap) relation =
      computedUsersetTargets ((OrderedMap.get? rewriteMap relation).getD directUserset) := by
  unfold ComputedEdges.targetsOf
  induction rewriteMap with
  | nil => simp [computedEdges, directUserset, computedUsersetTargets]
  | cons e m ih =>
    obtain ⟨key, tree⟩ := e
    by_cases hk : key = relation
    · simp [computedEdges, OrderedMap.get?, hk]
    · simpa [computedEdges, OrderedMap.get?, hk] using ih

/-- **Computed usersets descend.**  In an accepted config every relation ranks strictly above
    the relations its tree computes. -/
theorem rank_lt (config : NamespaceConfig) {relation target : String}
    (ht : target ∈ computedUsersetTargets (config.rewritesFor relation)) :
    config.rank target < config.rank relation := by
  have hext := ComputedEdges.walkEach_extends
    (fun a b t => ComputedEdges.cycleWalk_extends (computedEdges config.rewriteMap) a b t)
    config.search_eq
  have ht' : target ∈ ComputedEdges.targetsOf (computedEdges config.rewriteMap) relation := by
    rw [targetsOf_computedEdges]
    exact ht
  refine ComputedEdges.rankIn_lt (hext.topological trivial) (hext.asked ?_) ht'
  -- only a rewritten relation has targets, and every rewritten relation was walked
  cases hg : OrderedMap.get? (computedEdges config.rewriteMap) relation with
  | none => simp [ComputedEdges.targetsOf, hg] at ht'
  | some ts => exact List.mem_map.mpr ⟨_, OrderedMap.mem_of_get? hg, rfl⟩

end NamespaceConfig

/-! ## When a config is cyclic -/

namespace NamespaceConfigData

/-- The tree of a relation.  A record has one entry for each key; of several entries the last one
    counts. -/
def rewriteOf (data : NamespaceConfigData) (relation : String) : Option Userset :=
  OrderedMap.get? data.rewrites.reverse relation

/-- A computed userset anywhere in the tree of a relation names another relation. -/
def Computes (data : NamespaceConfigData) (relation target : String) : Prop :=
  ∃ tree, data.rewriteOf relation = some tree ∧ tree.Names target

/-- The checks of `create` before the cycle check. -/
def PassesOtherChecks (data : NamespaceConfigData) : Prop :=
  data.relations ≠ [] ∧ ∃ relationSet actionMap rewriteMap,
    bindRelations [] data.relations = .ok relationSet ∧
    bindActions relationSet [] data.actions = .ok actionMap ∧
    bindRewrites relationSet [] data.rewrites = .ok rewriteMap

end NamespaceConfigData

/-- The map of the rewrites has the last tree of each relation. -/
theorem get?_bindRewrites {relationSet : List String} {relation : String} :
    ∀ {rewrites : List (String × Userset)} {rewriteMap result : OrderedMap String Userset},
      bindRewrites relationSet rewriteMap rewrites = .ok result →
      OrderedMap.get? result relation =
        (OrderedMap.get? (rewrites.reverse ++ rewriteMap) relation) := by
  intro rewrites
  induction rewrites with
  | nil =>
    intro rewriteMap result h
    obtain rfl := Except.ok.inj h
    rfl
  | cons rw rws ih =>
    intro rewriteMap result h
    obtain ⟨key, tree⟩ := rw
    rw [bindRewrites] at h
    split_ifs at h with hr
    split at h
    · cases h
    · rw [ih h, List.reverse_cons, List.append_assoc, OrderedMap.get?_append,
        OrderedMap.get?_append, OrderedMap.get?_set]
      rfl

theorem NamespaceConfig.create_error {data : NamespaceConfigData} {e : NamespaceConfigError} :
    NamespaceConfig.create data = .error e ↔ NamespaceMaps.create data = .error e := by
  unfold NamespaceConfig.create
  split
  · next maps hcreate => exact ⟨nofun, fun h => nomatch hcreate.symm.trans h⟩
  · next e' hcreate =>
    constructor
    · intro h
      exact hcreate.trans (congrArg _ (Except.error.inj h))
    · intro h
      exact congrArg _ (Except.error.inj (hcreate.symm.trans h))

/-- **A config is refused as cyclic exactly when its computed usersets lead back to a relation.** -/
theorem create_cyclic_iff (data : NamespaceConfigData) (h : data.PassesOtherChecks) :
    NamespaceConfig.create data = .error .cyclicComputedUserset ↔
      ∃ relation, Relation.TransGen data.Computes relation relation := by
  obtain ⟨hne, relationSet, actionMap, rewriteMap, hrelations, hactions, hrewrites⟩ := h
  have hedges : ComputedEdges.Edge (computedEdges rewriteMap) = data.Computes := by
    funext relation target
    have hget : OrderedMap.get? rewriteMap relation = _ := get?_bindRewrites hrewrites
    rw [List.append_nil] at hget
    unfold ComputedEdges.Edge NamespaceConfigData.Computes NamespaceConfigData.rewriteOf
    rw [NamespaceConfig.targetsOf_computedEdges, hget]
    cases OrderedMap.get? data.rewrites.reverse relation with
    | none => simp [directUserset, computedUsersetTargets]
    | some tree => simp [mem_computedUsersetTargets]
  have hempty : data.relations.isEmpty = false := by
    rw [List.isEmpty_eq_false_iff]
    exact hne
  have hcreate : NamespaceMaps.create data = (do
      failIf (ComputedEdges.hasComputedUsersetCycle (computedEdges rewriteMap))
        .cyclicComputedUserset
      return ⟨relationSet, actionMap, rewriteMap⟩) := by
    unfold NamespaceMaps.create
    rw [hempty, hrelations]
    show (do
      let actionMap ← bindActions relationSet [] data.actions
      let rewriteMap ← bindRewrites relationSet [] data.rewrites
      failIf (ComputedEdges.hasComputedUsersetCycle (computedEdges rewriteMap))
        .cyclicComputedUserset
      return (⟨relationSet, actionMap, rewriteMap⟩ : NamespaceMaps)) = _
    rw [hactions]
    show (do
      let rewriteMap ← bindRewrites relationSet [] data.rewrites
      failIf (ComputedEdges.hasComputedUsersetCycle (computedEdges rewriteMap))
        .cyclicComputedUserset
      return (⟨relationSet, actionMap, rewriteMap⟩ : NamespaceMaps)) = _
    rw [hrewrites]
    rfl
  have hexact := ComputedEdges.hasComputedUsersetCycle_iff (computedEdges rewriteMap)
  rw [ComputedEdges.HasCycle, hedges] at hexact
  rw [NamespaceConfig.create_error, hcreate, ← hexact]
  cases ComputedEdges.hasComputedUsersetCycle (computedEdges rewriteMap) with
  | true => exact ⟨fun _ => rfl, fun _ => rfl⟩
  | false => exact ⟨nofun, nofun⟩

/-- Editors are viewers, and an editor who is a viewer as well is none: the cycle is closed in a
    subtract operand. -/
def cyclicData : NamespaceConfigData where
  relations := ["viewer", "editor"]
  actions := [("view", ["viewer"])]
  rewrites := [("viewer", .union [.this, .computedUserset "editor"]),
    ("editor", .exclusion .this (.intersection [.this, .computedUserset "viewer"]))]

theorem create_cyclic_iff_cyclicData :
    NamespaceConfig.create cyclicData = .error .cyclicComputedUserset :=
  (create_cyclic_iff cyclicData ⟨by decide, _, _, _, rfl, rfl, rfl⟩).mpr
    ⟨"viewer", .tail (.single ⟨_, rfl, .union (.tail _ (.head _)) (.computedUserset "editor")⟩)
      ⟨_, rfl, .subtract (.intersection (.tail _ (.head _)) (.computedUserset "viewer"))⟩⟩

/-! ## Actions and definitions -/

/-- An action `namespace.verb`; the constructor of the source is private to `create`. -/
structure Action where
  namespace_ : String
  verb : String
  namespaceIdentifier : isIdentifier namespace_ = true
  verbIdentifier : isIdentifier verb = true
deriving DecidableEq

def Action.create (name : String) : Option Action :=
  match name.toList.splitOn '.' with
  | [ns, verb] =>
    if h : isIdentifier (String.ofList ns) = true ∧ isIdentifier (String.ofList verb) = true then
      some ⟨String.ofList ns, String.ofList verb, h.1, h.2⟩
    else none
  | _ => none

def Action.name (action : Action) : String := action.namespace_ ++ "." ++ action.verb

structure NamespaceDefinition where
  orgId : OrgId
  namespace_ : String
  config : NamespaceConfig
  revision : Revision
  createdAt : Int

def NamespaceDefinition.requiredRelationsFor (definition : NamespaceDefinition)
    (action : Action) : List String :=
  if action.namespace_ ≠ definition.namespace_ then []
  else definition.config.requiredRelationsForVerb action.verb

/-! ## The registry -/

/-- Definitions by type; a later definition of a type replaces an earlier one. -/
structure NamespaceRegistry where
  byType : OrderedMap String NamespaceDefinition

namespace NamespaceRegistry

def of (definitions : List NamespaceDefinition) : NamespaceRegistry :=
  ⟨definitions.foldl (fun byType d => OrderedMap.set byType d.namespace_ d) []⟩

def get (registry : NamespaceRegistry) (type : String) : Option NamespaceDefinition :=
  OrderedMap.get? registry.byType type

def all (registry : NamespaceRegistry) : List NamespaceDefinition :=
  registry.byType.map (·.2)

def rewritesFor (registry : NamespaceRegistry) (type relation : String) : Userset :=
  match registry.get type with
  | some definition => definition.config.rewritesFor relation
  | none => directUserset

/-- A bound, over all types, on the computed usersets followed in a row. -/
def chainBound (registry : NamespaceRegistry) : Nat :=
  (registry.all.map fun d => d.config.order.length).foldr max 0

/-- The rank of a relation of a type. -/
def rank (registry : NamespaceRegistry) (type relation : String) : Nat :=
  match registry.get type with
  | some definition => definition.config.rank relation
  | none => 0

theorem rewritesFor_valid (registry : NamespaceRegistry) (type relation : String) :
    ∃ relations, validateUserset relations (registry.rewritesFor type relation) 0 = .ok () := by
  unfold rewritesFor
  cases registry.get type with
  | some d => exact ⟨_, d.config.rewritesFor_valid relation⟩
  | none => exact ⟨[], by simp [validateUserset, directUserset, maxRewriteDepth]⟩

theorem rank_lt (registry : NamespaceRegistry) {type relation target : String}
    (ht : target ∈ computedUsersetTargets (registry.rewritesFor type relation)) :
    registry.rank type target < registry.rank type relation := by
  unfold rewritesFor at ht
  unfold rank
  cases hg : registry.get type with
  | some d =>
    rw [hg] at ht
    exact d.config.rank_lt ht
  | none => simp [hg, directUserset, computedUsersetTargets] at ht

theorem le_foldr_max {n : Nat} : ∀ {ns : List Nat}, n ∈ ns → n ≤ ns.foldr max 0
  | m :: ms, h => by
    rcases List.mem_cons.mp h with rfl | h
    · exact le_max_left ..
    · exact le_trans (le_foldr_max h) (le_max_right ..)

theorem rank_le (registry : NamespaceRegistry) (type relation : String) :
    registry.rank type relation ≤ registry.chainBound := by
  unfold rank
  cases hg : registry.get type with
  | some d =>
    refine le_trans (d.config.rank_le relation) (le_foldr_max (List.mem_map.mpr ⟨d, ?_, rfl⟩))
    exact List.mem_map.mpr ⟨_, OrderedMap.mem_of_get? hg, rfl⟩
  | none => exact Nat.zero_le _

theorem get?_foldl_set (definitions : List NamespaceDefinition) (type : String) :
    ∀ byType : OrderedMap String NamespaceDefinition,
      OrderedMap.get? (definitions.foldl (fun m d => OrderedMap.set m d.namespace_ d) byType) type =
        (definitions.reverse.find? fun d => d.namespace_ = type).or
          (OrderedMap.get? byType type) := by
  induction definitions with
  | nil => intro byType; rfl
  | cons d ds ih =>
    intro byType
    rw [List.foldl_cons, ih, OrderedMap.get?_set, List.reverse_cons, List.find?_append]
    by_cases hd : d.namespace_ = type
    · simp [hd]
    · simp [hd]

/-- The definition of a type is the last one given. -/
theorem get_of (definitions : List NamespaceDefinition) (type : String) :
    (of definitions).get type = definitions.reverse.find? fun d => d.namespace_ = type := by
  have h := get?_foldl_set definitions type []
  rw [OrderedMap.get?_nil, Option.or_none] at h
  exact h

/-- A type given once is looked up to its definition. -/
theorem get_of_mem {definitions : List NamespaceDefinition} {definition : NamespaceDefinition}
    (h : definition ∈ definitions)
    (honce : ∀ d ∈ definitions, d.namespace_ = definition.namespace_ → d = definition) :
    (of definitions).get definition.namespace_ = some definition := by
  rw [get_of]
  cases hfind : definitions.reverse.find? fun d => d.namespace_ = definition.namespace_ with
  | none =>
    have hno := List.find?_eq_none.mp hfind definition (List.mem_reverse.mpr h)
    simp at hno
  | some d =>
    have hmem : d ∈ definitions := List.mem_reverse.mp (List.mem_of_find?_eq_some hfind)
    have hname : d.namespace_ = definition.namespace_ := by simpa using List.find?_some hfind
    rw [honce d hmem hname]

theorem get_of_none {definitions : List NamespaceDefinition} {type : String}
    (h : ∀ d ∈ definitions, d.namespace_ ≠ type) : (of definitions).get type = none := by
  rw [get_of, List.find?_eq_none]
  intro d hd
  simpa using h d (List.mem_reverse.mp hd)

theorem mem_of_all {definitions : List NamespaceDefinition} {definition : NamespaceDefinition}
    (h : definition ∈ (of definitions).all) : definition ∈ definitions := by
  have hfold : ∀ (ds : List NamespaceDefinition) (m : OrderedMap String NamespaceDefinition)
      (e : String × NamespaceDefinition),
      e ∈ ds.foldl (fun m d => OrderedMap.set m d.namespace_ d) m → e ∈ m ∨ e.2 ∈ ds := by
    intro ds
    induction ds with
    | nil => intro m e he; exact Or.inl he
    | cons d ds ih =>
      intro m e he
      rcases ih _ _ he with he | he
      · rcases OrderedMap.mem_set he with he | rfl
        · exact Or.inl he
        · exact Or.inr (List.mem_cons_self ..)
      · exact Or.inr (List.mem_cons_of_mem _ he)
  obtain ⟨e, he, rfl⟩ := List.mem_map.mp h
  rcases hfold definitions [] e he with he | he
  · exact absurd he List.not_mem_nil
  · exact he

end NamespaceRegistry

end AccessCore
