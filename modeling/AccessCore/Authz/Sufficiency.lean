/-
  When the loaded closure is enough.

  `loadClosure_sufficient` compares a check on the closure `loadClosure` returns with the check on
  the complete snapshot: they are the same search when every node the complete check visits is one
  the loader marks (`Covered`).  Nothing less will do in general.  The loader marks a node once, at
  the depth it first meets it, and a check visits it again inside an operand, with more of its depth
  left; `loadClosure_insufficient` is a store where that makes a banned user a viewer.

  Row order is the other thing the loader and the check depend on.  What the rows hold does not
  depend on it, so two orders can only differ by a refusal that was cut (`rebac_reordered`).
-/
import AccessCore.Authz.Isolation
import AccessCore.Authz.Agreement

namespace AccessCore

variable {dateParse : String → Option Int} {db : Database dateParse}
  {query : AuthorizationQuery}

/-! ## The check on the complete snapshot -/

namespace Database

/-- The nodes a check starts from. -/
def rootsOf (db : Database dateParse) (query : AuthorizationQuery) : List Node :=
  query.roots (db.requiredRelations query.orgId query.action query.resource)

/-- The search a check makes on the complete snapshot. -/
def searchOf (db : Database dateParse) (query : AuthorizationQuery) : Search Node EntityRef :=
  db.search query.orgId (some query.subject) query.subject

/-- Every node the check on the complete snapshot visits is one the loader marks. -/
def Covered (db : Database dateParse) (query : AuthorizationQuery) : Prop :=
  ∀ g cut tr V, (db.searchOf query).Checks (db.rootsOf query) false g cut tr →
    (db.searchOf query).MarksFrom (db.rootsOf query) [] V →
    ∀ n k, Event.visit n k ∈ tr → n ∈ V

/-- The closure a check loads. -/
def closureFor (db : Database dateParse) (query : AuthorizationQuery) :
    Closure db query.orgId (some query.subject) :=
  closureOf query.orgId query.resource
    (db.requiredRelations query.orgId query.action query.resource) (some query.subject)
    (EvaluationContext.opened db)

/-- The nodes of a list closed under reference cover the check, when the loader walks them. -/
theorem covered_of_closed (nodes : List Node) (hroots : ∀ n ∈ db.rootsOf query, n ∈ nodes)
    (hclosed : ∀ n ∈ nodes, ∀ m ∈ ((db.searchOf query).rule n).targets, m ∈ nodes)
    (hwalkable : ∀ n ∈ nodes, Walkable query.resource n)
    (hwalked : ∀ n ∈ nodes, n.key ∈ (db.closureFor query).walked) : db.Covered query := by
  intro g cut tr V hchecks hmarks n k hvisit
  have hn : n ∈ nodes := hchecks.visits_closed hclosed hroots n k hvisit
  have hmember : ∀ m, some query.subject = some m → m = query.subject :=
    fun m hm => (Option.some.inj hm).symm
  obtain ⟨V', hmarks', htracks, _⟩ := closureOf_marks hmember
    (db.requiredRelations query.orgId query.action query.resource) (EvaluationContext.opened db)
  obtain rfl := hmarks.unique hmarks'
  have hkey : n.key ∈ V.map Node.key := by
    rw [← htracks.walked]
    exact hwalked n hn
  exact (mem_map_key (hwalkable n hn) htracks.walkable).mp hkey

/-- The relations of a found definition that an action is bound to. -/
def requiredOf (action : Action) (found : Option NamespaceDefinition) : List String :=
  match found with
  | some definition => definition.requiredRelationsFor action
  | none => []

theorem complete_requiredRelations (memberships : Option IndexedMemberships) :
    AccessCore.requiredRelations query (db.complete query.orgId memberships).namespaces =
      db.requiredRelations query.orgId query.action query.resource := by
  have hget : (db.complete query.orgId memberships).namespaces.get query.resource.type =
      db.findByNamespace query.orgId query.resource.type := registry_get _
  exact congrArg (requiredOf query.action) hget

/-- The check on the complete snapshot, with the member's index view. -/
theorem complete_checks (db : Database dateParse) (query : AuthorizationQuery) : ∃ g cut tr,
    (db.searchOf query).Checks (db.rootsOf query) false g cut tr ∧
    (evaluate query (db.complete query.orgId
      (some (db.indexedView query.orgId query.subject)))).effect = (if g then .permit else .deny) ∧
    (g = false → (evaluate query (db.complete query.orgId
      (some (db.indexedView query.orgId query.subject)))).cites "walk_truncated" = cut) := by
  obtain ⟨g, cut, tr, hchecks, heffect, hcites⟩ :=
    evaluate_checks (db.complete_ofOrg (some (db.indexedView query.orgId query.subject)))
  rw [complete_requiredRelations] at hchecks
  exact ⟨g, cut, tr, hchecks, heffect, hcites⟩

/-- **A covered check is the check on the complete snapshot**, effect and truncation alike. -/
theorem rebac_checks (hcovered : db.Covered query) : ∃ g cut tr,
    (db.searchOf query).Checks (db.rootsOf query) false g cut tr ∧
    (db.rebac query).effect = (if g then .permit else .deny) ∧
    (g = false → (db.rebac query).cites "walk_truncated" = cut) := by
  have hmember : ∀ m, some query.subject = some m → m = query.subject :=
    fun m hm => (Option.some.inj hm).symm
  obtain ⟨V, hmarks, _, hagree, hget, _⟩ := closureOf_marks hmember
    (db.requiredRelations query.orgId query.action query.resource) (EvaluationContext.opened db)
  obtain ⟨g, cut, tr, hchecks, _⟩ := db.complete_checks query
  -- the loaded snapshot has the namespace of the resource, so it starts from the same roots
  have horg : (db.closureFor query).snapshot.OfOrg query.orgId := Closure.snapshot_ofOrg _
  have hloaded := evaluate_checks horg
  have hrequired : AccessCore.requiredRelations query (db.closureFor query).snapshot.namespaces =
      db.requiredRelations query.orgId query.action query.resource := by
    exact congrArg (requiredOf query.action) hget
  rw [hrequired] at hloaded
  obtain ⟨g', cut', tr', hchecks', heffect, hcites⟩ := hloaded
  have hbound : ((db.closureFor query).snapshot.search query.subject).bound =
      (db.searchOf query).bound := rfl
  have htarget : ((db.closureFor query).snapshot.search query.subject).target =
      (db.searchOf query).target := rfl
  have hvisits := hcovered g cut tr V hchecks hmarks
  obtain ⟨rfl, rfl, rfl⟩ := hchecks.of_marked hbound htarget hvisits hagree hchecks'
  exact ⟨_, _, _, hchecks, heffect, hcites⟩

/-! ## No index -/

theorem indexedView_of_empty (h : db.memberships.rows = []) (orgId : OrgId) (member : EntityRef) :
    db.indexedView orgId member = IndexedMemberships.none := by
  simp [indexedView, membershipsOf, Table.select, h]

theorem searchOf_hint (h : db.memberships.rows = []) (n : Node) :
    (db.searchOf query).hint n = none := by
  show (if WritableNode n.1 n.2 then _ else none) = none
  split_ifs
  · show (db.indexedView query.orgId query.subject).depthOf n.1 n.2 query.subject = none
    rw [indexedView_of_empty h]
    rfl
  · rfl

/-- Without an index, the complete snapshot may as well have no view at all. -/
theorem evaluate_complete_none (h : db.memberships.rows = []) :
    (evaluate query (db.complete query.orgId none)).effect =
      (evaluate query (db.complete query.orgId
        (some (db.indexedView query.orgId query.subject)))).effect := by
  obtain ⟨g, cut, tr, hchecks, heffect, _⟩ := db.complete_checks query
  obtain ⟨g', cut', tr', hchecks', heffect', _⟩ := evaluate_checks (db.complete_ofOrg none)
  rw [complete_requiredRelations] at hchecks'
  have hagree : ∀ n, (db.searchOf query).AgreesAt
      ((db.complete query.orgId none).search query.subject) n := by
    intro n
    refine ⟨rfl, fun m _ => ?_⟩
    rw [searchOf_hint h]
    show (if WritableNode m.1 m.2 then none else none) = none
    split_ifs <;> rfl
  have hsame : ((db.complete query.orgId none).search query.subject).Checks (db.rootsOf query) false
      g cut tr := by
    apply hchecks.congr
    · rfl
    · rfl
    · have hbound : ((db.complete query.orgId none).search query.subject).bound =
          (db.searchOf query).bound := rfl
      exact fun n k _ => (hagree n).agreesFrom hbound k
  obtain ⟨rfl, _, _⟩ := hsame.unique hchecks'
  rw [heffect, heffect']

end Database

/-! ## Loading is enough for a covered check -/

/-- **Loading is enough.**  Without an index, a check whose visits on the complete snapshot the
    loader has all marked has the same effect on the loaded closure. -/
theorem loadClosure_sufficient (db : Database dateParse) (query : AuthorizationQuery)
    (hindex : db.memberships.rows = []) (hcovered : db.Covered query) :
    (db.rebac query).effect = (evaluate query (db.complete query.orgId none)).effect := by
  obtain ⟨g, cut, tr, hchecks, heffect, _⟩ := Database.rebac_checks hcovered
  obtain ⟨g', cut', tr', hchecks', heffect', _⟩ := db.complete_checks query
  obtain ⟨rfl, _, _⟩ := hchecks.unique hchecks'
  rw [Database.evaluate_complete_none hindex, heffect, heffect']

/-- A store with one namespace and some rows, and nothing else. -/
def storeOf (definition : NamespaceDefinition) (rows : List (EntityRef × String × SubjectRef))
    (keyed : ((storedTuples acme rows).map tupleRowKey).Nodup) : Database fun _ => none :=
  { Database.empty with
    tuples := ⟨storedTuples acme rows, keyed⟩
    definitions := ⟨[definition], List.nodup_singleton _⟩ }

/-- The staff view the plan, except the banned, and ann is staff. -/
def staffStore : Database fun _ => none :=
  storeOf moderatedDocument
    [(⟨"document", "plan"⟩, "viewer", .userset ⟨"group", "staff"⟩ "member"),
      (⟨"group", "staff"⟩, "member", .subject ⟨"user", "ann"⟩)] (by decide)

theorem loadClosure_sufficient_staff : (staffStore.rebac annViewsPlan).effect =
    (evaluate annViewsPlan (staffStore.complete acme none)).effect := by
  have hcovered : staffStore.Covered annViewsPlan :=
    Database.covered_of_closed [(⟨"document", "plan"⟩, "viewer"), (⟨"document", "plan"⟩, "banned"),
      (⟨"group", "staff"⟩, "member")] (by decide) (by decide) (by decide) (by decide)
  exact loadClosure_sufficient staffStore annViewsPlan rfl hcovered

/-- Ann views the plan outright.  The banned are the members of `g10`, to which ann belongs through
    `g11`; the loader first meets `g10` ten hops away, down the chain of viewers from `g1`. -/
def bannedStore : Database fun _ => none :=
  storeOf moderatedDocument
    ((⟨"document", "plan"⟩, "viewer", .subject ⟨"user", "ann"⟩) ::
      (⟨"document", "plan"⟩, "viewer", .userset ⟨"group", "g1"⟩ "member") ::
      (⟨"document", "plan"⟩, "banned", .userset ⟨"group", "g10"⟩ "member") ::
      (⟨"group", "g11"⟩, "member", .subject ⟨"user", "ann"⟩) ::
      groupChain ["g1", "g2", "g3", "g4", "g5", "g6", "g7", "g8", "g9", "g10", "g11"])
    (by decide +kernel)

theorem loadClosure_insufficient : bannedStore.memberships.rows = [] ∧
    (bannedStore.rebac annViewsPlan).effect = .permit ∧
    (bannedStore.rebac annViewsPlan).cites "walk_truncated" = false ∧
    (evaluate annViewsPlan (bannedStore.complete acme none)).effect = .deny := by
  refine ⟨rfl, ?_, ?_, ?_⟩ <;> decide

/-! ## Row order -/

/-- Tables with the same rows in any order give every node the same rows in some order. -/
theorem Database.listByObject_perm {db db' : Database dateParse}
    (h : db.tuples.rows.Perm db'.tuples.rows) (orgId : OrgId) (object : EntityRef)
    (relation : String) :
    (db.listByObject orgId object relation).Perm (db'.listByObject orgId object relation) :=
  h.filter _

/-- **Two row orders differ only by a refusal that was cut.**  Each order is taken with a loader
    that has marked what the check visits. -/
theorem rebac_reordered (db db' : Database dateParse) (query : AuthorizationQuery)
    (hindex : db.memberships.rows = []) (hindex' : db'.memberships.rows = [])
    (hnamespaces : ∀ type, db.findByNamespace query.orgId type =
      db'.findByNamespace query.orgId type)
    (hrows : ∀ object relation, (db.listByObject query.orgId object relation).Perm
      (db'.listByObject query.orgId object relation))
    (hcovered : db.Covered query) (hcovered' : db'.Covered query) :
    (db.rebac query).effect = (db'.rebac query).effect ∨
    ((db.rebac query).effect = .deny ∧ (db.rebac query).cites "walk_truncated" = true) ∨
    ((db'.rebac query).effect = .deny ∧ (db'.rebac query).cites "walk_truncated" = true) := by
  obtain ⟨g, cut, tr, hchecks, heffect, hcites⟩ := Database.rebac_checks hcovered
  obtain ⟨g', cut', tr', hchecks', heffect', hcites'⟩ := Database.rebac_checks hcovered'
  have hroots : db'.rootsOf query = db.rootsOf query := by
    unfold Database.rootsOf Database.requiredRelations
    rw [hnamespaces]
  rw [hroots] at hchecks'
  have hrewrites : ∀ type relation, (db.registry query.orgId).rewritesFor type relation =
      (db'.registry query.orgId).rewritesFor type relation := fun type relation => by
    unfold NamespaceRegistry.rewritesFor
    rw [Database.registry_get, Database.registry_get, hnamespaces]
  -- the rows of a node list the same subjects, so the two rules hold the same
  have hholds : ∀ (n : Node) (X Y : Set Node),
      Plan.Holds query.subject X Y ((db.searchOf query).rule n) ↔
        Plan.Holds query.subject X Y ((db'.searchOf query).rule n) := by
    intro n X Y
    unfold Database.searchOf
    rw [Database.search_rule, Database.search_rule, hrewrites]
    apply holds_plan_congr
    intro r s
    exact ((hrows n.1 r).map (·.subject)).mem_iff
  have hnone : ∀ n k, (db.searchOf query).hint n = some k →
      n ∈ Plan.lower (db.searchOf query).rule query.subject := fun n k h => by
    rw [Database.searchOf_hint hindex] at h
    cases h
  have hnone' : ∀ n k, (db'.searchOf query).hint n = some k →
      n ∈ Plan.lower (db.searchOf query).rule query.subject := fun n k h => by
    rw [Database.searchOf_hint hindex'] at h
    cases h
  have htarget : (db'.searchOf query).target = (db.searchOf query).target := rfl
  cases g with
  | true =>
    cases g' with
    | true => exact Or.inl (heffect.trans heffect'.symm)
    | false =>
      have hcut : cut' = true := hchecks.consistent htarget hholds hnone hnone' hchecks'
      exact Or.inr (Or.inr ⟨heffect', (hcites' rfl).trans hcut⟩)
  | false =>
    cases g' with
    | false => exact Or.inl (heffect.trans heffect'.symm)
    | true =>
      have hswap : Plan.lower (db.searchOf query).rule query.subject =
          Plan.lower (db'.searchOf query).rule query.subject := (Plan.bracket_congr hholds).1
      rw [hswap] at hnone hnone'
      have hcut : cut = true := hchecks'.consistent htarget.symm
        (fun n X Y => (hholds n X Y).symm) hnone' hnone hchecks
      exact Or.inr (Or.inl ⟨heffect, (hcites rfl).trans hcut⟩)

/-- The plan is for the staff and for the board, which belongs to the staff and lists ann. -/
def staffFirst : Database fun _ => none :=
  storeOf moderatedDocument
    [(⟨"document", "plan"⟩, "viewer", .userset ⟨"group", "staff"⟩ "member"),
      (⟨"document", "plan"⟩, "viewer", .userset ⟨"group", "board"⟩ "member"),
      (⟨"group", "staff"⟩, "member", .userset ⟨"group", "board"⟩ "member"),
      (⟨"group", "board"⟩, "member", .subject ⟨"user", "ann"⟩)] (by decide)

/-- The two rows of the plan the other way round: the board is first met one hop earlier. -/
def boardFirst : Database fun _ => none :=
  storeOf moderatedDocument
    [(⟨"document", "plan"⟩, "viewer", .userset ⟨"group", "board"⟩ "member"),
      (⟨"document", "plan"⟩, "viewer", .userset ⟨"group", "staff"⟩ "member"),
      (⟨"group", "staff"⟩, "member", .userset ⟨"group", "board"⟩ "member"),
      (⟨"group", "board"⟩, "member", .subject ⟨"user", "ann"⟩)] (by decide)

example : (staffFirst.listByObject acme ⟨"document", "plan"⟩ "viewer").map (·.subject) =
    ((boardFirst.listByObject acme ⟨"document", "plan"⟩ "viewer").map (·.subject)).reverse := by
  decide

theorem rebac_reordered_staff :
    (staffFirst.rebac annViewsPlan).effect = (boardFirst.rebac annViewsPlan).effect ∨
    ((staffFirst.rebac annViewsPlan).effect = .deny ∧
      (staffFirst.rebac annViewsPlan).cites "walk_truncated" = true) ∨
    ((boardFirst.rebac annViewsPlan).effect = .deny ∧
      (boardFirst.rebac annViewsPlan).cites "walk_truncated" = true) := by
  have hperm : staffFirst.tuples.rows.Perm boardFirst.tuples.rows := List.Perm.swap _ _ _
  have hcovered : staffFirst.Covered annViewsPlan :=
    Database.covered_of_closed [(⟨"document", "plan"⟩, "viewer"), (⟨"document", "plan"⟩, "banned"),
      (⟨"group", "staff"⟩, "member"), (⟨"group", "board"⟩, "member")]
      (by decide) (by decide) (by decide) (by decide)
  have hcovered' : boardFirst.Covered annViewsPlan :=
    Database.covered_of_closed [(⟨"document", "plan"⟩, "viewer"), (⟨"document", "plan"⟩, "banned"),
      (⟨"group", "staff"⟩, "member"), (⟨"group", "board"⟩, "member")]
      (by decide) (by decide) (by decide) (by decide)
  exact rebac_reordered staffFirst boardFirst annViewsPlan rfl rfl (fun _ => rfl)
    (Database.listByObject_perm hperm _) hcovered hcovered'

/-- The chain of groups from `g1`, ten hops long, ends at `g10`, which is also a viewer itself. -/
def chainRows : List (EntityRef × String × SubjectRef) :=
  (⟨"group", "g11"⟩, "member", .subject ⟨"user", "ann"⟩) ::
    groupChain ["g1", "g2", "g3", "g4", "g5", "g6", "g7", "g8", "g9", "g10", "g11"]

/-- The long way to `g10` comes first. -/
def farFirst : Database fun _ => none :=
  storeOf plainDocument
    ((⟨"document", "plan"⟩, "viewer", .userset ⟨"group", "g1"⟩ "member") ::
      (⟨"document", "plan"⟩, "viewer", .userset ⟨"group", "g10"⟩ "member") :: chainRows)
    (by decide +kernel)

/-- The short way to `g10` comes first. -/
def nearFirst : Database fun _ => none :=
  storeOf plainDocument
    ((⟨"document", "plan"⟩, "viewer", .userset ⟨"group", "g10"⟩ "member") ::
      (⟨"document", "plan"⟩, "viewer", .userset ⟨"group", "g1"⟩ "member") :: chainRows)
    (by decide +kernel)

theorem rebac_order_matters :
    farFirst.memberships.rows = [] ∧ nearFirst.memberships.rows = [] ∧
    (∀ type, farFirst.findByNamespace acme type = nearFirst.findByNamespace acme type) ∧
    (∀ object relation, (farFirst.listByObject acme object relation).Perm
      (nearFirst.listByObject acme object relation)) ∧
    (farFirst.rebac annViewsPlan).effect = .deny ∧
    (nearFirst.rebac annViewsPlan).effect = .permit := by
  have hperm : farFirst.tuples.rows.Perm nearFirst.tuples.rows := List.Perm.swap _ _ _
  refine ⟨rfl, rfl, fun _ => rfl, Database.listByObject_perm hperm acme, ?_, ?_⟩ <;> decide

end AccessCore
