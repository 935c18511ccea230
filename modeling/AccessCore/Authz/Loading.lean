/-
  What the loader fetches.

  `closureOf_marks` says that the nodes `loadClosure` walks are the depth-first marking of the plan
  graph of the complete snapshot, and that the returned snapshot agrees with the complete one at
  every marked node: same rows, same rewrite trees, same index answers.  Every other fact about
  loading follows from it, since a check reads the snapshot at the nodes it visits and nowhere else
  (`Search.Checks.of_marked`).

  The simulation carries one thing besides the marking.  A node is marked before its tree is walked,
  so what its plan reads is fetched only when the tree is done (`Settled`), and stays fetched as
  the closure grows (`Grows`).
-/
import AccessCore.Authz.Closure

namespace AccessCore

variable {dateParse : String → Option Int} {db : Database dateParse} {orgId : OrgId}
  {member : Option EntityRef}

/-! ## The complete snapshot -/

namespace Database

/-- The search a check of `target` makes on the complete snapshot, with the index view of the
    member the loader is given. -/
def search (db : Database dateParse) (orgId : OrgId) (member : Option EntityRef)
    (target : EntityRef) : Search Node EntityRef :=
  (db.complete orgId (member.map (db.indexedView orgId))).search target

theorem complete_subjectsOf {memberships : Option IndexedMemberships} (object : EntityRef)
    (relation : String) : (db.complete orgId memberships).tuples.subjectsOf object relation =
      (db.listByObject orgId object relation).map (·.subject) := by
  show (TupleIndex.of orgId (db.tuplesOf orgId)).subjectsOf object relation = _
  rw [TupleIndex.subjectsOf_eq, tuplesOf, listByObject, Table.select, Table.select,
    List.filter_filter]
  congr 2
  funext t
  by_cases ho : t.orgId = orgId <;> simp [ho]

/-- The subjects of a node's rows. -/
def subjectsOf (db : Database dateParse) (orgId : OrgId) (object : EntityRef)
    (relation : String) : List SubjectRef :=
  (db.listByObject orgId object relation).map (·.subject)

theorem search_rule {target : EntityRef} (n : Node) : (db.search orgId member target).rule n =
    ((db.registry orgId).rewritesFor n.1.type n.2).plan (db.subjectsOf orgId n.1) n.1 n.2 := by
  show Userset.plan _ n.1 n.2 _ = _
  congr 1
  funext relation
  exact complete_subjectsOf n.1 relation

theorem complete_ofOrg (memberships : Option IndexedMemberships) :
    (db.complete orgId memberships).OfOrg orgId := by
  refine ⟨rfl, fun d hd => ?_⟩
  have hmem := NamespaceRegistry.mem_of_all hd
  have hsel : d ∈ db.definitions.rows ∧ d.orgId = orgId := by simpa [Table.select] using hmem
  exact hsel.2

end Database

namespace Closure

variable {closure closure' : Closure db orgId member}

/-! ## Closures grow -/

/-- Nothing collected is lost. -/
structure Grows (closure closure' : Closure db orgId member) : Prop where
  rows : ∀ q v, closure.rows.lookup q = some v → closure'.rows.lookup q = some v
  reached : ∀ t d, OrderedMap.get? closure.reached t = some d →
    OrderedMap.get? closure'.reached t = some d
  memberships : ∀ v, closure.memberships = some v → closure'.memberships = some v
  revisionUsed : closure'.context.revisionUsed = closure.context.revisionUsed

theorem Grows.refl (closure : Closure db orgId member) : Grows closure closure :=
  ⟨fun _ _ => id, fun _ _ => id, fun _ => id, rfl⟩

theorem Grows.trans {closure'' : Closure db orgId member} (h : Grows closure closure')
    (h' : Grows closure' closure'') : Grows closure closure'' :=
  ⟨fun q v hv => h'.rows q v (h.rows q v hv), fun t d hd => h'.reached t d (h.reached t d hd),
    fun v hv => h'.memberships v (h.memberships v hv), h'.revisionUsed.trans h.revisionUsed⟩

/-- The index view has been read, when there is a member to read it for. -/
def Viewed (closure : Closure db orgId member) : Prop :=
  closure.memberships = member.map (db.indexedView orgId)

theorem Viewed.mono (h : Viewed closure) (hg : Grows closure closure') : Viewed closure' := by
  unfold Viewed at *
  cases member with
  | none =>
    rcases closure'.viewed with hv | hv
    · exact hv
    · exact hv
  | some m => exact hg.memberships _ h

/-! ## One step of the loader -/

theorem rowsOf_walked (object : EntityRef) (relation : String) :
    (closure.rowsOf object relation).2.walked = closure.walked := by
  unfold rowsOf
  split <;> rfl

theorem rowsOf_grows (object : EntityRef) (relation : String) :
    Grows closure (closure.rowsOf object relation).2 := by
  unfold rowsOf
  split
  · exact Grows.refl closure
  · exact ⟨fun q v hv => Memo.lookup_store_mono faithful_rows
      (closure.context.cachedRows_fst orgId (object, relation)) hv, fun _ _ => id, fun _ => id, rfl⟩

theorem rowsOf_lookup (object : EntityRef) (relation : String) :
    (closure.rowsOf object relation).2.rows.lookup (object, relation) =
      some (db.listByObject orgId object relation) := by
  unfold rowsOf
  split
  · next rows h =>
    rw [h, Memo.lookup_eq faithful_rows h]
  · exact (Memo.lookup_store faithful_rows
      (closure.context.cachedRows_fst orgId (object, relation)) _).trans
      (if_pos rfl)

theorem namespaceOf_walked (type : String) :
    (closure.namespaceOf type).2.walked = closure.walked := by
  unfold namespaceOf
  dsimp only
  split <;> rfl

theorem namespaceOf_grows (type : String) : Grows closure (closure.namespaceOf type).2 := by
  unfold namespaceOf
  dsimp only
  split
  · next definition h =>
    have hfound : db.findByNamespace orgId type = some definition :=
      (closure.context.cachedNamespace_fst orgId type).symm.trans h
    refine ⟨fun _ _ => id, fun t d hd => ?_, fun _ => id, rfl⟩
    show OrderedMap.get? (OrderedMap.set closure.reached type definition) t = some d
    rw [OrderedMap.get?_set]
    split_ifs with ht
    · have hd' := closure.reachedFound _ (OrderedMap.mem_of_get? hd)
      rw [← ht, hfound] at hd'
      exact hd'
    · exact hd
  · exact ⟨fun _ _ => id, fun _ _ => id, fun _ => id, rfl⟩

theorem namespaceOf_reached (type : String) :
    OrderedMap.get? (closure.namespaceOf type).2.reached type = db.findByNamespace orgId type := by
  unfold namespaceOf
  dsimp only
  split
  · next definition h =>
    have hfound := (closure.context.cachedNamespace_fst orgId type).symm.trans h
    show OrderedMap.get? (OrderedMap.set closure.reached type definition) type = _
    rw [OrderedMap.get?_set, if_pos rfl, hfound]
  · next h =>
    have hnone := (closure.context.cachedNamespace_fst orgId type).symm.trans h
    show OrderedMap.get? closure.reached type = _
    cases hg : OrderedMap.get? closure.reached type with
    | none => exact hnone.symm
    | some d =>
      have hd := closure.reachedFound _ (OrderedMap.mem_of_get? hg)
      exact hd.symm

theorem indexedMemberships_snd {member : EntityRef} (closure : Closure db orgId (some member)) :
    closure.indexedMemberships.2.walked = closure.walked ∧
      Grows closure closure.indexedMemberships.2 ∧ Viewed closure.indexedMemberships.2 := by
  have hview : closure.indexedMemberships.2.memberships =
      some closure.indexedMemberships.1 := by
    unfold indexedMemberships
    split
    · next h => exact h
    · rfl
  rw [indexedMemberships_fst] at hview
  refine ⟨?_, ?_, hview⟩
  · unfold indexedMemberships
    split <;> rfl
  · refine ⟨?_, ?_, fun v hv => ?_, ?_⟩
    · unfold indexedMemberships
      split <;> exact fun _ _ => id
    · unfold indexedMemberships
      split <;> exact fun _ _ => id
    · rcases closure.viewed with h | h
      · rw [hv] at h
        cases h
      · rw [hview, ← hv, h]
        rfl
    · unfold indexedMemberships
      split <;> rfl

theorem indexedGrant_snd (set : EntityRef) (relation : String) (depth : Nat) :
    (closure.indexedGrant set relation depth).2.walked = closure.walked ∧
      Grows closure (closure.indexedGrant set relation depth).2 ∧
      Viewed (closure.indexedGrant set relation depth).2 := by
  cases member with
  | none =>
    refine ⟨rfl, Grows.refl closure, ?_⟩
    rcases closure.viewed with hv | hv
    · exact hv
    · exact hv
  | some m => exact closure.indexedMemberships_snd

/-- The loader passes a node by exactly when the complete search would take the hint. -/
theorem indexedGrant_iff {target : EntityRef} (hm : ∀ m, member = some m → m = target)
    (closure : Closure db orgId member) {n : Node} (hn : WritableNode n.1 n.2) {depth : Nat} :
    (closure.indexedGrant n.1 n.2 depth).1 = true ↔
      (db.search orgId member target).Hinted n depth := by
  have hsame : (closure.indexedGrant n.1 n.2 depth).1 = indexedWithin
      (db.complete orgId (member.map (db.indexedView orgId))) n.1 n.2 target depth := by
    cases member with
    | none => rfl
    | some m =>
      obtain rfl := hm m rfl
      have hview : closure.indexedMemberships.1 = db.indexedView orgId m :=
        closure.indexedMemberships_fst
      rw [Option.map_some, ← hview]
      rfl
  rw [hsame]
  exact indexedWithin_iff hn

/-! ## The snapshot of a closure -/

theorem mem_rows {e : String × List RelationTuple} (he : e ∈ closure.rows.entries)
    {tuple : RelationTuple} (ht : tuple ∈ e.2) :
    tuple.orgId = orgId ∧ e.1 = nodeKey tuple.object tuple.relation := by
  obtain ⟨q, rfl⟩ := closure.rows.sound e he
  obtain ⟨_, horg, hobj, hrel⟩ := Database.mem_listByObject.mp ht
  exact ⟨horg, by rw [hobj, hrel]; rfl⟩

/-- The rows of a node among all the collected rows are those remembered under its key. -/
theorem subjectsOf_rows {q : Node} {rows : List RelationTuple}
    (h : closure.rows.lookup q = some rows) :
    closure.snapshot.tuples.subjectsOf q.1 q.2 = rows.map (·.subject) := by
  show (TupleIndex.of orgId (closure.rows.entries.map (·.2)).flatten).subjectsOf q.1 q.2 = _
  rw [TupleIndex.subjectsOf_eq]
  congr 1
  have hread : rows = db.listByObject orgId q.1 q.2 := Memo.lookup_eq faithful_rows h
  have hown : ∀ t ∈ rows, t.orgId = orgId ∧ t.object = q.1 ∧ t.relation = q.2 := by
    intro t ht
    rw [hread] at ht
    exact (Database.mem_listByObject.mp ht).2
  have hkey : ∀ e ∈ closure.rows.entries, ∀ t ∈ e.2, t.object = q.1 → t.relation = q.2 →
      e.1 = q.key := by
    intro e he t ht ho hr
    rw [(mem_rows he ht).2, ho, hr]
    rfl
  have hkeyed := closure.rows.keyed
  have hentry : OrderedMap.get? closure.rows.entries q.key = some rows := h
  generalize closure.rows.entries = entries at hkey hkeyed hentry
  -- every entry before or after that of `q` holds no tuple of the node
  induction entries with
  | nil => simp at hentry
  | cons e entries ih =>
    obtain ⟨hne, hkeyed⟩ := List.nodup_cons.mp hkeyed
    rw [List.map_cons, List.flatten_cons, List.filter_append]
    by_cases hk : e.1 = q.key
    · obtain rfl : e.2 = rows := by simpa [OrderedMap.get?, hk] using hentry
      have hall : e.2.filter (fun t => t.orgId = orgId ∧ t.object = q.1 ∧ t.relation = q.2) =
          e.2 := by
        rw [List.filter_eq_self]
        intro t ht
        simpa using hown t ht
      have hrest : (entries.map (·.2)).flatten.filter
          (fun t => t.orgId = orgId ∧ t.object = q.1 ∧ t.relation = q.2) = [] := by
        rw [List.filter_eq_nil_iff]
        intro t ht hp
        obtain ⟨_, hl, htl⟩ := List.mem_flatten.mp ht
        obtain ⟨e', he', rfl⟩ := List.mem_map.mp hl
        obtain ⟨_, ho, hr⟩ : t.orgId = orgId ∧ t.object = q.1 ∧ t.relation = q.2 := by
          simpa using hp
        have hk' := hkey e' (List.mem_cons_of_mem _ he') t htl ho hr
        exact hne (List.mem_map.mpr ⟨e', he', hk'.trans hk.symm⟩)
      rw [hall, hrest, List.append_nil]
    · have hnone : e.2.filter (fun t => t.orgId = orgId ∧ t.object = q.1 ∧ t.relation = q.2) =
          [] := by
        rw [List.filter_eq_nil_iff]
        intro t ht hp
        obtain ⟨_, ho, hr⟩ : t.orgId = orgId ∧ t.object = q.1 ∧ t.relation = q.2 := by
          simpa using hp
        exact hk (hkey e (List.mem_cons_self ..) t ht ho hr)
      rw [hnone, List.nil_append]
      exact ih (fun e' he' => hkey e' (List.mem_cons_of_mem _ he')) hkeyed
        (by simpa [OrderedMap.get?, hk] using hentry)

theorem snapshot_get {type : String}
    (h : OrderedMap.get? closure.reached type = db.findByNamespace orgId type) :
    closure.snapshot.namespaces.get type = db.findByNamespace orgId type := by
  have hname : ∀ e ∈ closure.reached, e.2.namespace_ = e.1 := fun e he =>
    (Database.mem_of_findByNamespace (closure.reachedFound e he)).2.2
  show (NamespaceRegistry.of (closure.reached.map (·.2))).get type = _
  cases hfind : db.findByNamespace orgId type with
  | none =>
    apply NamespaceRegistry.get_of_none
    intro d hd htype
    obtain ⟨e, he, rfl⟩ := List.mem_map.mp hd
    have hfound := closure.reachedFound e he
    rw [← hname e he, htype, hfind] at hfound
    cases hfound
  | some definition =>
    rw [hfind] at h
    have hmem := OrderedMap.mem_of_get? h
    obtain rfl : definition.namespace_ = type := hname _ hmem
    apply NamespaceRegistry.get_of_mem (List.mem_map.mpr ⟨_, hmem, rfl⟩)
    intro d hd htype
    obtain ⟨e, he, rfl⟩ := List.mem_map.mp hd
    have hfound := closure.reachedFound e he
    rw [← hname e he, htype, hfind] at hfound
    exact (Option.some.inj hfound).symm

theorem snapshot_ofOrg (closure : Closure db orgId member) : closure.snapshot.OfOrg orgId := by
  refine ⟨rfl, fun d hd => ?_⟩
  obtain ⟨e, he, rfl⟩ := List.mem_map.mp (NamespaceRegistry.mem_of_all hd)
  exact (Database.mem_of_findByNamespace (closure.reachedFound e he)).2.1

/-! ## The walk is the marking -/

/-- The nodes of `V` are the walked ones. -/
structure Tracks (resource : EntityRef) (V : List Node) (closure : Closure db orgId member) :
    Prop where
  walked : closure.walked = V.map Node.key
  walkable : ∀ m ∈ V, Walkable resource m

/-- What the plan of a tree reads has been fetched, for good. -/
def Settled (closure : Closure db orgId member) (object : EntityRef) (relation : String)
    (rewrite : Userset) : Prop :=
  ∀ closure', Grows closure closure' →
    rewrite.plan (closure'.snapshot.tuples.subjectsOf object) object relation =
      rewrite.plan (db.subjectsOf orgId object) object relation ∧
    ((rewrite.plan (db.subjectsOf orgId object) object relation).hinted ≠ [] → Viewed closure')

theorem Settled.mono {object : EntityRef} {relation : String} {rewrite : Userset}
    (h : Settled closure object relation rewrite) (hg : Grows closure closure') :
    Settled closure' object relation rewrite :=
  fun closure'' hg' => h closure'' (hg.trans hg')

/-- What the plan of a node reads has been fetched. -/
structure Fetched (closure : Closure db orgId member) (n : Node) : Prop where
  reached : OrderedMap.get? closure.reached n.1.type = db.findByNamespace orgId n.1.type
  settled : Settled closure n.1 n.2 ((db.registry orgId).rewritesFor n.1.type n.2)

theorem reached_mono (hg : Grows closure closure') {type : String}
    (h : OrderedMap.get? closure.reached type = db.findByNamespace orgId type) :
    OrderedMap.get? closure'.reached type = db.findByNamespace orgId type := by
  cases hfind : db.findByNamespace orgId type with
  | some d => exact hg.reached _ _ (h.trans hfind)
  | none =>
    cases hget : OrderedMap.get? closure'.reached type with
    | none => rfl
    | some d =>
      have hd := closure'.reachedFound _ (OrderedMap.mem_of_get? hget)
      rw [hfind] at hd
      cases hd

theorem Fetched.mono {n : Node} (h : Fetched closure n) (hg : Grows closure closure') :
    Fetched closure' n :=
  ⟨reached_mono hg h.reached, h.settled.mono hg⟩

/-- A stretch of the walk, from the nodes `V` to the nodes `V'`. -/
structure Walks (resource : EntityRef) (V : List Node) (closure : Closure db orgId member)
    (V' : List Node) (closure' : Closure db orgId member) : Prop where
  tracks : Tracks resource V' closure'
  grows : Grows closure closure'
  fetched : ∀ m ∈ V', m ∉ V → Fetched closure' m

theorem Walks.refl {resource : EntityRef} {V : List Node} (h : Tracks resource V closure) :
    Walks resource V closure V closure :=
  ⟨h, Grows.refl closure, fun _ hm hno => absurd hm hno⟩

theorem Walks.trans {resource : EntityRef} {V V' V'' : List Node}
    {closure'' : Closure db orgId member} (h : Walks resource V closure V' closure')
    (h' : Walks resource V' closure' V'' closure'') : Walks resource V closure V'' closure'' := by
  refine ⟨h'.tracks, h.grows.trans h'.grows, fun m hm hno => ?_⟩
  by_cases hm' : m ∈ V'
  · exact (h.fetched m hm' hno).mono h'.grows
  · exact h'.fetched m hm hm'

/-- A stretch that walks no node. -/
theorem Walks.still {resource : EntityRef} {V : List Node} (h : Tracks resource V closure)
    (hw : closure'.walked = closure.walked) (hg : Grows closure closure') :
    Walks resource V closure V closure' :=
  ⟨⟨hw.trans h.walked, h.walkable⟩, hg, fun _ hm hno => absurd hm hno⟩

section Marks

variable {target resource : EntityRef} {recur : EntityRef → String → Nat →
  Closure db orgId member → Option (Closure db orgId member)} {depth : Nat}

/-- The recursive call of the loader marks from every walkable node. -/
def MarksNodes (target resource : EntityRef) (recur : EntityRef → String → Nat →
    Closure db orgId member → Option (Closure db orgId member)) : Prop :=
  ∀ (n : Node) (d : Nat) (V : List Node) (closure closure' : Closure db orgId member),
    Walkable resource n → Tracks resource V closure → recur n.1 n.2 d closure = some closure' →
    ∃ V', (db.search orgId member target).Marks d (.node n) V V' ∧
      Walks resource V closure V' closure'

theorem walkUsersets_marks (hm : ∀ m, member = some m → m = target)
    (hrec : MarksNodes target resource recur) :
    ∀ {tuples : List RelationTuple} {V : List Node} {closure closure' : Closure db orgId member},
      Tracks resource V closure → walkUsersets recur depth tuples closure = some closure' →
      ∃ V', (db.search orgId member target).Marks depth
          (.anyOf (gotoUsersets (tuples.map (·.subject)))) V V' ∧
        Walks resource V closure V' closure' ∧
        (usersetNodes (tuples.map (·.subject)) ≠ [] → Viewed closure') := by
  intro tuples
  induction tuples with
  | nil =>
    intro V closure closure' ht h
    obtain rfl := Option.some.inj h
    exact ⟨V, .anyNil, Walks.refl ht, fun hne => absurd rfl hne⟩
  | cons tuple tuples ih =>
    intro V closure closure' ht h
    rw [walkUsersets] at h
    have hwritable := tuple.writableSubject
    rw [List.map_cons]
    cases hs : tuple.subject with
    | subject ref =>
      rw [hs] at h
      exact ih ht h
    | userset ref relation =>
      rw [hs] at h hwritable
      dsimp only at h
      have hn : WritableNode ref relation := writableSubject_node hwritable
      obtain ⟨hwalked, hgrows, hviewed⟩ := closure.indexedGrant_snd ref relation (depth + 1)
      have hstill := Walks.still ht hwalked hgrows
      have hhint : (closure.indexedGrant ref relation (depth + 1)).1 = true ↔
          (db.search orgId member target).Hinted (ref, relation) (depth + 1) :=
        indexedGrant_iff hm closure (n := (ref, relation)) hn
      -- a granted userset is passed by, any other is walked one hop further
      by_cases hg : (closure.indexedGrant ref relation (depth + 1)).1 = true
      · rw [if_pos hg] at h
        obtain ⟨V', hmarks, hwalks, _⟩ := ih hstill.tracks h
        exact ⟨V', .anyCons (.hinted (hhint.mp hg)) hmarks, hstill.trans hwalks,
          fun _ => hviewed.mono hwalks.grows⟩
      · rw [if_neg hg] at h
        obtain ⟨closure₁, h₁, h⟩ := Option.bind_eq_some_iff.mp h
        obtain ⟨V₁, hmarks₁, hwalks₁⟩ :=
          hrec (ref, relation) _ _ _ _ (Or.inr hn) hstill.tracks h₁
        obtain ⟨V', hmarks, hwalks, _⟩ := ih hwalks₁.tracks h
        exact ⟨V', .anyCons (.goto (fun _ hh => hg (hhint.mpr hh)) hmarks₁) hmarks,
          hstill.trans (hwalks₁.trans hwalks),
          fun _ => hviewed.mono (hwalks₁.grows.trans hwalks.grows)⟩

theorem walkTupleset_marks (hrec : MarksNodes target resource recur) {computed : String}
    (hc : isIdentifier computed = true) :
    ∀ {tuples : List RelationTuple} {V : List Node} {closure closure' : Closure db orgId member},
      Tracks resource V closure → walkTupleset recur depth computed tuples closure = some closure' →
      ∃ V', (db.search orgId member target).Marks depth
          (.anyOf (gotoSubjects computed (tuples.map (·.subject)))) V V' ∧
        Walks resource V closure V' closure' := by
  intro tuples
  induction tuples with
  | nil =>
    intro V closure closure' ht h
    obtain rfl := Option.some.inj h
    exact ⟨V, .anyNil, Walks.refl ht⟩
  | cons tuple tuples ih =>
    intro V closure closure' ht h
    rw [walkTupleset] at h
    have hwritable := tuple.writableSubject
    rw [List.map_cons]
    cases hs : tuple.subject with
    | userset ref relation =>
      rw [hs] at h
      exact ih ht h
    | subject ref =>
      rw [hs] at h hwritable
      have hn : Walkable resource (ref, computed) := Or.inr ⟨writableSubject_ref hwritable, hc⟩
      obtain ⟨closure₁, h₁, h⟩ := Option.bind_eq_some_iff.mp h
      obtain ⟨V₁, hmarks₁, hwalks₁⟩ := hrec (ref, computed) _ _ _ _ hn ht h₁
      obtain ⟨V', hmarks, hwalks⟩ := ih hwalks₁.tracks h
      exact ⟨V', .anyCons (.goto (by simp) hmarks₁) hmarks, hwalks₁.trans hwalks⟩

/-- What the walk of a tree must do, once the rows of its node are fetched. -/
def MarksTree (target resource : EntityRef) (recur : EntityRef → String → Nat →
    Closure db orgId member → Option (Closure db orgId member)) (depth : Nat) (object : EntityRef)
    (relation : String) (rewrite : Userset) : Prop :=
  ∀ (V : List Node) (closure closure' : Closure db orgId member), Tracks resource V closure →
    closure.rows.lookup (object, relation) = some (db.listByObject orgId object relation) →
    walkRewrite recur depth object (db.listByObject orgId object relation) rewrite closure =
      some closure' →
    ∃ V', (db.search orgId member target).Marks depth
        (.tree (rewrite.plan (db.subjectsOf orgId object) object relation)) V V' ∧
      Walks resource V closure V' closure' ∧ Settled closure' object relation rewrite

variable {object : EntityRef} {relation : String}

/-- The loop over children marks them as alternatives and as operands alike. -/
theorem walkChildren_marks {children : List Userset}
    (hchildren : ∀ c ∈ children, MarksTree target resource recur depth object relation c) :
    ∀ {V : List Node} {closure closure' : Closure db orgId member}, Tracks resource V closure →
      closure.rows.lookup (object, relation) = some (db.listByObject orgId object relation) →
      walkChildren recur depth object (db.listByObject orgId object relation) children closure =
        some closure' →
      ∃ V', (db.search orgId member target).Marks depth
          (.anyOf (Userset.plans (db.subjectsOf orgId object) object relation children)) V V' ∧
        (db.search orgId member target).Marks depth
          (.allOf (Userset.plans (db.subjectsOf orgId object) object relation children)) V V' ∧
        Walks resource V closure V' closure' ∧
        ∀ c ∈ children, Settled closure' object relation c := by
  induction children with
  | nil =>
    intro V closure closure' ht _ h
    obtain rfl := Option.some.inj h
    exact ⟨V, .anyNil, .allNil, Walks.refl ht, fun c hc => absurd hc List.not_mem_nil⟩
  | cons c cs ih =>
    intro V closure closure' ht hrows h
    rw [walkChildren] at h
    obtain ⟨closure₁, h₁, h⟩ := Option.bind_eq_some_iff.mp h
    obtain ⟨V₁, hmarks₁, hwalks₁, hsettled₁⟩ :=
      hchildren c (List.mem_cons_self ..) V closure closure₁ ht hrows h₁
    obtain ⟨V', hany, hall, hwalks, hsettled⟩ :=
      ih (fun d hd => hchildren d (List.mem_cons_of_mem _ hd)) hwalks₁.tracks
        (hwalks₁.grows.rows _ _ hrows) h
    refine ⟨V', .anyCons hmarks₁ hany, .allCons hmarks₁ hall, hwalks₁.trans hwalks, ?_⟩
    intro d hd
    rcases List.mem_cons.mp hd with rfl | hd
    · exact hsettled₁.mono hwalks.grows
    · exact hsettled d hd

/-- Settled children settle their union and their intersection. -/
theorem settled_children {children : List Userset}
    (h : ∀ c ∈ children, Settled closure object relation c) (hg : Grows closure closure') :
    Userset.plans (closure'.snapshot.tuples.subjectsOf object) object relation children =
      Userset.plans (db.subjectsOf orgId object) object relation children ∧
    (Plan.hintedIn (Userset.plans (db.subjectsOf orgId object) object relation children) ≠ [] →
      Viewed closure') := by
  constructor
  · exact plans_congr fun c hc => (h c hc closure' hg).1
  · intro hne
    obtain ⟨c, hc, hhinted⟩ := exists_hinted_of_plans hne
    exact (h c hc closure' hg).2 hhinted

/-- The walk of one tree marks its plan, and settles it.  The induction is on the tree. -/
theorem walkRewrite_marks (hm : ∀ m, member = some m → m = target)
    (hrec : MarksNodes target resource recur) (hobj : Walkable resource (object, relation))
    {relations : List String} (rewrite : Userset) :
    ∀ {level : Nat}, validateUserset relations rewrite level = .ok () →
      MarksTree target resource recur depth object relation rewrite := by
  induction rewrite with
  | this =>
    intro level _ V closure closure' ht hrows h
    obtain ⟨V', hmarks, hwalks, hviewed⟩ := walkUsersets_marks hm hrec ht h
    refine ⟨V', .any (.anyCons .leaf hmarks), hwalks, fun closure'' hg => ⟨?_, fun hne => ?_⟩⟩
    · have hlookup := hg.rows _ _ (hwalks.grows.rows _ _ hrows)
      have hsubjects := subjectsOf_rows hlookup
      rw [Userset.plan, Userset.plan, hsubjects]
      rfl
    · apply (hviewed _).mono hg
      rw [Userset.plan, Plan.hinted, Plan.hintedIn, hintedIn_gotoUsersets] at hne
      exact hne
  | computedUserset rel =>
    intro level hv V closure closure' ht _ h
    have hn : Walkable resource (object, rel) := hobj.computed (validateUserset_ok hv).2.1
    obtain ⟨V', hmarks, hwalks⟩ := hrec (object, rel) _ _ _ _ hn ht h
    exact ⟨V', .goto (by simp) hmarks, hwalks, fun closure'' _ => ⟨rfl, fun hne => absurd rfl hne⟩⟩
  | tupleToUserset tupleset computed =>
    intro level hv V closure closure' ht _ h
    rw [walkRewrite, rowsOf_fst] at h
    have hfetch := Walks.still ht (rowsOf_walked object tupleset) (rowsOf_grows object tupleset)
    obtain ⟨V', hmarks, hwalks⟩ :=
      walkTupleset_marks hrec (validateUserset_ok hv).2.2.1 hfetch.tracks h
    refine ⟨V', .any hmarks, hfetch.trans hwalks, fun closure'' hg => ⟨?_, fun hne => ?_⟩⟩
    · have hlookup := hg.rows _ _ (hwalks.grows.rows _ _ (rowsOf_lookup object tupleset))
      have hsubjects := subjectsOf_rows hlookup
      rw [Userset.plan, Userset.plan, hsubjects]
      rfl
    · rw [Userset.plan, Plan.hinted, hintedIn_gotoSubjects] at hne
      exact absurd rfl hne
  | union children ih =>
    intro level hv V closure closure' ht hrows h
    obtain ⟨V', hany, _, hwalks, hsettled⟩ :=
      walkChildren_marks (fun c hc => ih c hc ((validateUserset_ok hv).2.2 c hc)) ht hrows h
    refine ⟨V', .any hany, hwalks, fun closure'' hg => ?_⟩
    obtain ⟨hplans, hhinted⟩ := settled_children hsettled hg
    rw [Userset.plan, Userset.plan, hplans]
    exact ⟨rfl, hhinted⟩
  | intersection children ih =>
    intro level hv V closure closure' ht hrows h
    obtain ⟨V', _, hall, hwalks, hsettled⟩ :=
      walkChildren_marks (fun c hc => ih c hc ((validateUserset_ok hv).2.2 c hc)) ht hrows h
    refine ⟨V', .all hall, hwalks, fun closure'' hg => ?_⟩
    obtain ⟨hplans, hhinted⟩ := settled_children hsettled hg
    rw [Userset.plan, Userset.plan, hplans]
    exact ⟨rfl, hhinted⟩
  | exclusion base subtract ihb ihs =>
    intro level hv V closure closure' ht hrows h
    obtain ⟨hvb, hvs⟩ := (validateUserset_ok hv).2
    rw [walkRewrite] at h
    obtain ⟨closure₁, h₁, h⟩ := Option.bind_eq_some_iff.mp h
    obtain ⟨V₁, hmarks₁, hwalks₁, hsettled₁⟩ := ihb hvb V closure closure₁ ht hrows h₁
    obtain ⟨V', hmarks, hwalks, hsettled⟩ :=
      ihs hvs V₁ closure₁ closure' hwalks₁.tracks (hwalks₁.grows.rows _ _ hrows) h
    refine ⟨V', .diff hmarks₁ hmarks, hwalks₁.trans hwalks, fun closure'' hg => ?_⟩
    obtain ⟨hbase, hbview⟩ := hsettled₁ closure'' (hwalks.grows.trans hg)
    obtain ⟨hsub, hsview⟩ := hsettled closure'' hg
    rw [Userset.plan, Userset.plan, hbase, hsub]
    refine ⟨rfl, fun hne => ?_⟩
    rw [Plan.hinted] at hne
    rcases not_and_or.mp (mt List.append_eq_nil_iff.mpr hne) with hne | hne
    · exact hbview hne
    · exact hsview hne

theorem walkFuel_marks (hm : ∀ m, member = some m → m = target) (fuel : Nat) :
    MarksNodes target resource
      (walkFuel fuel : _ → _ → _ → Closure db orgId member → Option (Closure db orgId member)) := by
  induction fuel with
  | zero => intro n d V closure closure' _ _ h; simp [walkFuel] at h
  | succ fuel ih =>
    intro n d V closure closure' hn ht h
    rw [walkFuel] at h
    split_ifs at h with hskip
    · obtain rfl := Option.some.inj h
      refine ⟨V, .skip (hskip.imp_left fun hw => ?_), Walks.refl ht⟩
      rw [ht.walked] at hw
      exact (mem_map_key hn ht.walkable).mp hw
    · obtain ⟨hnew, hdepth⟩ := not_or.mp hskip
      have hnV : n ∉ V := by
        intro hv
        apply hnew
        rw [ht.walked]
        exact (mem_map_key hn ht.walkable).mpr hv
      simp only [loaded_rewrite, rowsOf_fst] at h
      obtain ⟨relations, hvalid⟩ := (db.registry orgId).rewritesFor_valid n.1.type n.2
      -- the node is marked, then its rows and its namespace are fetched, then its tree is walked
      have ht₀ : Tracks resource (n :: V)
          { closure with walked := nodeKey n.1 n.2 :: closure.walked } := by
        refine ⟨?_, fun m hmem => ?_⟩
        · show nodeKey n.1 n.2 :: closure.walked = (n :: V).map Node.key
          rw [ht.walked]
          rfl
        · rcases List.mem_cons.mp hmem with rfl | hmem
          · exact hn
          · exact ht.walkable m hmem
      have hrows := Walks.still ht₀ (rowsOf_walked n.1 n.2) (rowsOf_grows n.1 n.2)
      have hname := Walks.still hrows.tracks (namespaceOf_walked n.1.type)
        (namespaceOf_grows n.1.type)
      obtain ⟨V', hmarks, hwalks, hsettled⟩ := walkRewrite_marks hm ih hn _ hvalid _ _ _
        hname.tracks (hname.grows.rows _ _ (rowsOf_lookup n.1 n.2)) h
      have hrule : (db.search orgId member target).rule n = _ := Database.search_rule n
      rw [← hrule] at hmarks
      have hall := hrows.trans (hname.trans hwalks)
      refine ⟨V', .visit (Nat.not_lt.mp hdepth) hnV hmarks, hall.tracks, ?_, fun m hmem hno => ?_⟩
      · exact ⟨hall.grows.rows, hall.grows.reached, hall.grows.memberships,
          hall.grows.revisionUsed⟩
      · by_cases hmn : m = n
        · subst hmn
          exact ⟨reached_mono hwalks.grows (namespaceOf_reached m.1.type), hsettled⟩
        · exact hall.fetched m hmem (by simp [hmn, hno])

theorem walk_marks (hm : ∀ m, member = some m → m = target) {n : Node} {d : Nat} {V : List Node}
    (hn : Walkable resource n) (ht : Tracks resource V closure) :
    ∃ V', (db.search orgId member target).Marks d (.node n) V V' ∧
      Walks resource V closure V' (closure.walk n.1 n.2 d) :=
  walkFuel_marks hm _ n d V closure _ hn ht (closure.walkFuel_walk n.1 n.2 d)

end Marks

end Closure

/-! ## What the loader returns -/

/-- At every fetched node the returned snapshot agrees with the complete one. -/
theorem Closure.Fetched.agreesAt {closure : Closure db orgId member} {n : Node} {target : EntityRef}
    (h : closure.Fetched n) :
    (db.search orgId member target).AgreesAt (closure.snapshot.search target) n := by
  obtain ⟨hplan, hviewed⟩ := h.settled closure (Closure.Grows.refl closure)
  have hget := Closure.snapshot_get h.reached
  constructor
  · rw [Database.search_rule, ← hplan]
    show Userset.plan _ n.1 n.2 (closure.snapshot.namespaces.rewritesFor n.1.type n.2) = _
    congr 1
    unfold NamespaceRegistry.rewritesFor
    rw [hget, Database.registry_get]
  · intro m hm
    rw [Database.search_rule] at hm
    have hview : closure.memberships = member.map (db.indexedView orgId) :=
      hviewed (List.ne_nil_of_mem hm)
    show (if WritableNode m.1 m.2 then closure.memberships.bind _ else none) = _
    rw [hview]
    rfl

/-- **Loading is marking.**  The loader walks the depth-first marking of the complete plan graph;
    what it returns agrees with the complete snapshot at every marked node and has the namespace
    of the resource, and the context it leaves stays at its revision. -/
theorem closureOf_marks {resource target : EntityRef} (hm : ∀ m, member = some m → m = target)
    (relations : List String) (context : EvaluationContext db) :
    ∃ V, (db.search orgId member target).MarksFrom
        (relations.map fun relation => (resource, relation)) [] V ∧
      Closure.Tracks resource V (closureOf orgId resource relations member context) ∧
      (∀ n ∈ V, (db.search orgId member target).AgreesAt
        ((closureOf orgId resource relations member context).snapshot.search target) n) ∧
      (closureOf orgId resource relations member context).snapshot.namespaces.get resource.type =
        db.findByNamespace orgId resource.type ∧
      (closureOf orgId resource relations member context).context.revisionUsed =
        context.revisionUsed := by
  have hstart : ∀ (relations : List String) (V : List Node) (closure : Closure db orgId member),
      Closure.Tracks resource V closure →
      ∃ V', (db.search orgId member target).MarksFrom
          (relations.map fun relation => (resource, relation)) V V' ∧
        Closure.Walks resource V closure V'
          (relations.foldl (fun closure relation => closure.walk resource relation 0) closure) := by
    intro relations
    induction relations with
    | nil => intro V closure ht; exact ⟨V, .nil, Closure.Walks.refl ht⟩
    | cons relation relations ih =>
      intro V closure ht
      obtain ⟨V₁, hmarks₁, hwalks₁⟩ :=
        Closure.walk_marks (n := (resource, relation)) (d := 0) hm (Or.inl rfl) ht
      obtain ⟨V', hmarks, hwalks⟩ := ih V₁ _ hwalks₁.tracks
      exact ⟨V', .cons hmarks₁ hmarks, hwalks₁.trans hwalks⟩
  have hopened : ∀ closure : Closure db orgId member, closure.walked = [] →
      Closure.Tracks resource [] (closure.namespaceOf resource.type).2 := fun closure hnil =>
    ⟨(Closure.namespaceOf_walked resource.type).trans hnil,
      fun _ hmem => absurd hmem List.not_mem_nil⟩
  obtain ⟨V, hmarks, hwalks⟩ := hstart relations [] _ (hopened (Closure.opened context) rfl)
  refine ⟨V, hmarks, hwalks.tracks,
    fun n hn => (hwalks.fetched n hn List.not_mem_nil).agreesAt, ?_, ?_⟩
  · exact Closure.snapshot_get (Closure.reached_mono hwalks.grows
      (Closure.namespaceOf_reached resource.type))
  · exact hwalks.grows.revisionUsed.trans (Closure.namespaceOf_grows resource.type).revisionUsed

end AccessCore
