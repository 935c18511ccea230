/-
  A check reads only its organization's part of the store, and its context only in passing.

  Two runs of the loader, over two database states that show one organization the same rows, return
  the same snapshot, whatever their contexts have cached (`closureOf_alike`).  So the result of an
  evaluation is a function of what the state shows the organization (`evaluateWithin_sameOrg`),
  and an evaluation in a context that other checks have used is the uncached one
  (`evaluateWithin_shared`).
-/
import AccessCore.Authz.Pdp

namespace AccessCore

variable {dateParse : String → Option Int} {db db' : Database dateParse} {orgId : OrgId}
  {member : Option EntityRef}

/-- Two states show an organization the same tuples, namespaces and index views. -/
structure SameOrg (db db' : Database dateParse) (orgId : OrgId) : Prop where
  tuples : db.tuplesOf orgId = db'.tuplesOf orgId
  definitions : (db.definitions.select fun d => d.orgId = orgId) =
    db'.definitions.select fun d => d.orgId = orgId
  view : ∀ member, db.indexedView orgId member = db'.indexedView orgId member

namespace SameOrg

theorem refl (db : Database dateParse) (orgId : OrgId) : SameOrg db db orgId :=
  ⟨rfl, rfl, fun _ => rfl⟩

theorem listByObject_eq (object : EntityRef) (relation : String) :
    db.listByObject orgId object relation =
      (db.tuplesOf orgId).filter fun t => t.object = object ∧ t.relation = relation := by
  unfold Database.listByObject Database.tuplesOf Table.select
  rw [List.filter_filter]
  congr 1
  funext t
  by_cases ho : t.orgId = orgId <;> simp [ho]

theorem rows (h : SameOrg db db' orgId) (object : EntityRef) (relation : String) :
    db.listByObject orgId object relation = db'.listByObject orgId object relation := by
  rw [listByObject_eq, listByObject_eq, h.tuples]

theorem registry (h : SameOrg db db' orgId) : db.registry orgId = db'.registry orgId := by
  unfold Database.registry
  rw [h.definitions]

theorem namespaces (h : SameOrg db db' orgId) (type : String) :
    db.findByNamespace orgId type = db'.findByNamespace orgId type := by
  rw [← Database.registry_get, ← Database.registry_get, h.registry]

end SameOrg

/-! ## Two runs of the loader -/

namespace Closure

/-- Two closures have collected the same. -/
structure Alike (closure : Closure db orgId member) (closure' : Closure db' orgId member) :
    Prop where
  rows : closure.rows.entries = closure'.rows.entries
  walked : closure.walked = closure'.walked
  reached : closure.reached = closure'.reached
  memberships : closure.memberships = closure'.memberships

variable {closure : Closure db orgId member} {closure' : Closure db' orgId member}

theorem Alike.snapshot (h : Alike closure closure') : closure.snapshot = closure'.snapshot := by
  unfold Closure.snapshot
  rw [h.rows, h.reached, h.memberships]

theorem rowsOf_alike (hs : SameOrg db db' orgId) (h : Alike closure closure') (object : EntityRef)
    (relation : String) :
    Alike (closure.rowsOf object relation).2 (closure'.rowsOf object relation).2 := by
  have hlookup : closure.rows.lookup (object, relation) =
      closure'.rows.lookup (object, relation) := by
    unfold Memo.lookup
    rw [h.rows]
  have hload : (closure.context.cachedRows orgId (object, relation)).1 =
      (closure'.context.cachedRows orgId (object, relation)).1 := by
    rw [EvaluationContext.cachedRows_fst, EvaluationContext.cachedRows_fst]
    exact hs.rows object relation
  cases hl : closure.rows.lookup (object, relation) with
  | some rows =>
    have hl' := hlookup.symm.trans hl
    simp only [rowsOf, hl, hl']
    exact h
  | none =>
    have hl' := hlookup.symm.trans hl
    simp only [rowsOf, hl, hl']
    refine ⟨?_, h.walked, h.reached, h.memberships⟩
    show OrderedMap.set _ _ _ = OrderedMap.set _ _ _
    rw [h.rows, hload]

theorem namespaceOf_alike (hs : SameOrg db db' orgId) (h : Alike closure closure')
    (type : String) : Alike (closure.namespaceOf type).2 (closure'.namespaceOf type).2 := by
  have hfound : (closure.context.cachedNamespace orgId type).1 =
      (closure'.context.cachedNamespace orgId type).1 := by
    rw [EvaluationContext.cachedNamespace_fst, EvaluationContext.cachedNamespace_fst]
    exact hs.namespaces type
  unfold namespaceOf
  dsimp only
  split
  · next d hd =>
    split
    · next d' hd' =>
      obtain rfl : d = d' := Option.some.inj (hd.symm.trans (hfound.trans hd'))
      refine ⟨h.rows, h.walked, ?_, h.memberships⟩
      show OrderedMap.set _ _ _ = OrderedMap.set _ _ _
      rw [h.reached]
    · next hd' =>
      rw [← hfound, hd] at hd'
      cases hd'
  · next hd =>
    split
    · next d' hd' =>
      rw [← hfound, hd] at hd'
      cases hd'
    · exact ⟨h.rows, h.walked, h.reached, h.memberships⟩

theorem indexedGrant_alike (hs : SameOrg db db' orgId) (h : Alike closure closure')
    (set : EntityRef) (relation : String) (depth : Nat) :
    (closure.indexedGrant set relation depth).1 = (closure'.indexedGrant set relation depth).1 ∧
      Alike (closure.indexedGrant set relation depth).2
        (closure'.indexedGrant set relation depth).2 := by
  cases member with
  | none => exact ⟨rfl, h⟩
  | some m =>
    have hview : (closure.context.indexedMemberships orgId m).1 =
        (closure'.context.indexedMemberships orgId m).1 := by
      rw [EvaluationContext.indexedMemberships_fst, EvaluationContext.indexedMemberships_fst]
      exact hs.view m
    constructor
    · simp only [indexedGrant, indexedMemberships_fst, hs.view m]
    · cases hm : closure.memberships with
      | some view =>
        have hm' := h.memberships.symm.trans hm
        simp only [indexedGrant, indexedMemberships, hm, hm']
        exact h
      | none =>
        have hm' := h.memberships.symm.trans hm
        simp only [indexedGrant, indexedMemberships, hm, hm']
        exact ⟨h.rows, h.walked, h.reached, congrArg some hview⟩

section Walk

variable {recur : EntityRef → String → Nat → Closure db orgId member →
    Option (Closure db orgId member)}
  {recur' : EntityRef → String → Nat → Closure db' orgId member →
    Option (Closure db' orgId member)} {depth : Nat}

/-- A run that ends is matched by a run of the other side that ends alike. -/
def Matched (result : Option (Closure db orgId member))
    (result' : Option (Closure db' orgId member)) : Prop :=
  ∀ closure, result = some closure → ∃ closure', result' = some closure' ∧ Alike closure closure'

/-- The two recursive calls match. -/
def MatchedCalls (recur : EntityRef → String → Nat → Closure db orgId member →
    Option (Closure db orgId member)) (recur' : EntityRef → String → Nat →
    Closure db' orgId member → Option (Closure db' orgId member)) : Prop :=
  ∀ object relation d closure closure', Alike closure closure' →
    Matched (recur object relation d closure) (recur' object relation d closure')

theorem Matched.bind {x : Option (Closure db orgId member)} {y : Option (Closure db' orgId member)}
    {f : Closure db orgId member → Option (Closure db orgId member)}
    {g : Closure db' orgId member → Option (Closure db' orgId member)} (h : Matched x y)
    (hf : ∀ c c', Alike c c' → Matched (f c) (g c')) : Matched (x >>= f) (y >>= g) := by
  intro closure hc
  obtain ⟨c, hx, hfc⟩ := Option.bind_eq_some_iff.mp hc
  obtain ⟨c', hy, halike⟩ := h c hx
  obtain ⟨closure', hg, hend⟩ := hf c c' halike closure hfc
  exact ⟨closure', Option.bind_eq_some_iff.mpr ⟨c', hy, hg⟩, hend⟩

theorem matched_some (h : Alike closure closure') : Matched (some closure) (some closure') := by
  intro c hc
  obtain rfl := Option.some.inj hc
  exact ⟨closure', rfl, h⟩

theorem walkUsersets_matched (hs : SameOrg db db' orgId) (hrec : MatchedCalls recur recur') :
    ∀ (tuples : List RelationTuple) {closure : Closure db orgId member}
      {closure' : Closure db' orgId member}, Alike closure closure' →
      Matched (walkUsersets recur depth tuples closure)
        (walkUsersets recur' depth tuples closure') := by
  intro tuples
  induction tuples with
  | nil => intro closure closure' h; exact matched_some h
  | cons tuple tuples ih =>
    intro closure closure' h
    rw [walkUsersets, walkUsersets]
    cases tuple.subject with
    | subject ref => exact ih h
    | userset ref relation =>
      obtain ⟨hgrant, hafter⟩ := indexedGrant_alike hs h ref relation (depth + 1)
      dsimp only
      rw [hgrant]
      split_ifs
      · exact ih hafter
      · exact (hrec _ _ _ _ _ hafter).bind fun c c' hc => ih hc

theorem walkTupleset_matched (hrec : MatchedCalls recur recur') (computed : String) :
    ∀ (tuples : List RelationTuple) {closure : Closure db orgId member}
      {closure' : Closure db' orgId member}, Alike closure closure' →
      Matched (walkTupleset recur depth computed tuples closure)
        (walkTupleset recur' depth computed tuples closure') := by
  intro tuples
  induction tuples with
  | nil => intro closure closure' h; exact matched_some h
  | cons tuple tuples ih =>
    intro closure closure' h
    rw [walkTupleset, walkTupleset]
    cases tuple.subject with
    | userset ref relation => exact ih h
    | subject ref => exact (hrec _ _ _ _ _ h).bind fun c c' hc => ih hc

theorem walkChildren_matched {object : EntityRef} {node : List RelationTuple}
    {children : List Userset}
    (hchildren : ∀ c ∈ children, ∀ (closure : Closure db orgId member)
      (closure' : Closure db' orgId member), Alike closure closure' →
      Matched (walkRewrite recur depth object node c closure)
        (walkRewrite recur' depth object node c closure')) :
    ∀ {closure : Closure db orgId member} {closure' : Closure db' orgId member},
      Alike closure closure' → Matched (walkChildren recur depth object node children closure)
        (walkChildren recur' depth object node children closure') := by
  induction children with
  | nil => intro closure closure' h; exact matched_some h
  | cons c cs ih =>
    intro closure closure' h
    rw [walkChildren, walkChildren]
    have hc := hchildren c (List.mem_cons_self ..) closure closure' h
    exact hc.bind fun d d' hd => ih (fun e he => hchildren e (List.mem_cons_of_mem _ he)) hd

theorem walkRewrite_matched (hs : SameOrg db db' orgId) (hrec : MatchedCalls recur recur')
    {object : EntityRef} {node : List RelationTuple} (rewrite : Userset) :
    ∀ (closure : Closure db orgId member) (closure' : Closure db' orgId member),
      Alike closure closure' → Matched (walkRewrite recur depth object node rewrite closure)
        (walkRewrite recur' depth object node rewrite closure') := by
  induction rewrite with
  | this => intro closure closure' h; exact walkUsersets_matched hs hrec node h
  | computedUserset rel => intro closure closure' h; exact hrec _ _ _ _ _ h
  | tupleToUserset tupleset computed =>
    intro closure closure' h
    rw [walkRewrite, walkRewrite, rowsOf_fst, rowsOf_fst, hs.rows]
    exact walkTupleset_matched hrec computed _ (rowsOf_alike hs h object tupleset)
  | union children ih => intro closure closure' h; exact walkChildren_matched ih h
  | intersection children ih => intro closure closure' h; exact walkChildren_matched ih h
  | exclusion base subtract ihb ihs =>
    intro closure closure' h
    rw [walkRewrite, walkRewrite]
    exact (ihb closure closure' h).bind fun c c' hc => ihs c c' hc

end Walk

theorem walkFuel_matched (hs : SameOrg db db' orgId) (fuel : Nat) :
    MatchedCalls (walkFuel fuel : _ → _ → _ → Closure db orgId member → _)
      (walkFuel fuel : _ → _ → _ → Closure db' orgId member → _) := by
  induction fuel with
  | zero =>
    intro object relation d closure closure' _ c hc
    simp [walkFuel] at hc
  | succ fuel ih =>
    intro object relation d closure closure' h
    rw [walkFuel, walkFuel, h.walked]
    split_ifs
    · exact matched_some h
    · simp only [loaded_rewrite, rowsOf_fst, hs.registry, hs.rows]
      have hstart : Alike { closure with walked := nodeKey object relation :: closure'.walked }
          { closure' with walked := nodeKey object relation :: closure'.walked } :=
        ⟨h.rows, rfl, h.reached, h.memberships⟩
      have hrows := rowsOf_alike hs hstart object relation
      exact walkRewrite_matched hs ih _ _ _ (namespaceOf_alike hs hrows object.type)

theorem walk_alike (hs : SameOrg db db' orgId) (h : Alike closure closure') (object : EntityRef)
    (relation : String) (depth : Nat) :
    Alike (closure.walk object relation depth) (closure'.walk object relation depth) := by
  obtain ⟨c', hc', halike⟩ := walkFuel_matched hs (AccessCore.walkFuel (db.registry orgId)) object
    relation depth closure closure' h _ (closure.walkFuel_walk object relation depth)
  have hwalk := closure'.walkFuel_walk object relation depth
  rw [← hs.registry, hc'] at hwalk
  obtain rfl := Option.some.inj hwalk
  exact halike

end Closure

/-- **Two runs of the loader return the same.** -/
theorem closureOf_alike (hs : SameOrg db db' orgId) (resource : EntityRef)
    (relations : List String) (member : Option EntityRef) (context : EvaluationContext db)
    (context' : EvaluationContext db') :
    (closureOf orgId resource relations member context).Alike
      (closureOf orgId resource relations member context') := by
  have hfold : ∀ (relations : List String) (c : Closure db orgId member)
      (c' : Closure db' orgId member), c.Alike c' →
      Closure.Alike (relations.foldl (fun c relation => c.walk resource relation 0) c)
        (relations.foldl (fun c relation => c.walk resource relation 0) c') := by
    intro relations
    induction relations with
    | nil => intro c c' h; exact h
    | cons relation relations ih =>
      intro c c' h
      exact ih _ _ (Closure.walk_alike hs h resource relation 0)
  exact hfold relations _ _ (Closure.namespaceOf_alike hs ⟨rfl, rfl, rfl, rfl⟩ resource.type)

theorem loadClosure_sameOrg (hs : SameOrg db db' orgId) (resource : EntityRef)
    (relations : List String) (member : Option EntityRef) (context : EvaluationContext db)
    (context' : EvaluationContext db') :
    (loadClosure orgId resource relations member context).1 =
      (loadClosure orgId resource relations member context').1 :=
  (closureOf_alike hs resource relations member context context').snapshot

/-! ## Two evaluations -/

section Evaluate

variable {principal : Principal} (action : Action) (resource : EntityRef)
  (request : RequestContext) (now : Int) (context : EvaluationContext db)
  (context' : EvaluationContext db')

/-- **The result of an evaluation is a function of what the state shows the organization**, and
    of whether the state has reached the revision the request asks for. -/
theorem evaluateWithin_sameOrg (horg : principal.orgId = some orgId) (hs : SameOrg db db' orgId)
    (hpolicies : db.listByTarget orgId resource.type action.verb =
      db'.listByTarget orgId resource.type action.verb)
    (hrevision : ∀ r, request.consistency.requiredRevision = some r →
      context.revisionUsed.isAtLeast r = context'.revisionUsed.isAtLeast r) :
    (evaluateWithin principal action resource request now context).1.decision =
      (evaluateWithin principal action resource request now context').1.decision := by
  have hmet : (request.consistency.requiredRevision.any
        fun r => !context.revisionUsed.isAtLeast r) =
      request.consistency.requiredRevision.any fun r => !context'.revisionUsed.isAtLeast r := by
    cases hr : request.consistency.requiredRevision with
    | none => rfl
    | some r => simp [hrevision r hr]
  unfold evaluateWithin prepare
  simp only [horg, hmet]
  split_ifs with hunmet
  · rfl
  · simp only [resultOf, EvaluationContext.cachedNamespace_fst, hs.namespaces, hpolicies]
    rw [loadClosure_sameOrg hs]

variable (principal) in
/-- **An evaluation in a shared context is the uncached one.** -/
theorem evaluateWithin_shared (hrevision : context.revisionUsed = db.current) :
    (evaluateWithin principal action resource request now context).1 =
      db.evaluated principal action resource request now := by
  have hopened : (EvaluationContext.opened db).revisionUsed = db.current := rfl
  unfold Database.evaluated evaluateWithin prepare
  cases horg : principal.orgId with
  | none => rfl
  | some orgId =>
    simp only [hrevision, hopened]
    split_ifs with hunmet
    · rfl
    · simp only [resultOf, EvaluationContext.cachedNamespace_fst]
      rw [loadClosure_sameOrg (SameOrg.refl db orgId)]

variable (principal) in
/-- An evaluation leaves its context at its revision. -/
theorem evaluateWithin_revisionUsed : (evaluateWithin principal action resource request now
    context).2.revisionUsed = context.revisionUsed := by
  unfold evaluateWithin prepare
  cases horg : principal.orgId with
  | none => rfl
  | some orgId =>
    dsimp only
    split_ifs with hunmet
    · rfl
    · have hmember : ∀ m, some principal.subject = some m → m = principal.subject :=
        fun m hm => (Option.some.inj hm).symm
      obtain ⟨_, _, _, _, _, hrevision⟩ := closureOf_marks hmember _
        (context.cachedNamespace orgId resource.type).2
      exact hrevision

end Evaluate

end AccessCore
