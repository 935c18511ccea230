/-
  The depth-first tour of a plan graph: which nodes a bounded walk enters, and at what depth.

  For plans that only unite, a walk that never stops early enters nodes depth first, each at most
  once and none below the bound.  `Tours rule bound d c V es` says that call `c`, made at depth `d`
  with `V` entered before, enters the nodes `es` in this order, each with its depth.

  A tour is determined by the graph (`Tours.unique`).  The depth of an entry is the length of a
  path, so a member listed at an entered node has a derivation of that many hops
  (`Tours.finds`); it need not be the shortest one, since the first path that leads to a node may
  be a detour.  Where all paths to a node are of one length, there are no detours: every member
  within the bound is met at the length of its shortest derivation (`Tours.meets`).
-/
import AccessCore.Lib.Search

namespace Search

variable {ν μ : Type} {rule : ν → Plan ν μ} {bound : Nat} {m : μ}

/-- The nodes entered before, after a tour. -/
def after (V : List ν) (es : List (ν × Nat)) : List ν := (es.map (·.1)).reverse ++ V

@[simp] theorem after_nil (V : List ν) : after V [] = V := rfl

theorem after_cons (V : List ν) (n : ν) (d : Nat) (es : List (ν × Nat)) :
    after V ((n, d) :: es) = after (n :: V) es := by
  simp [after]

theorem after_append (V : List ν) (es es' : List (ν × Nat)) :
    after V (es ++ es') = after (after V es) es' := by
  simp [after]

/-- What has been entered after a tour. -/
theorem mem_after {V : List ν} {es : List (ν × Nat)} {n : ν} :
    n ∈ after V es ↔ (∃ k, (n, k) ∈ es) ∨ n ∈ V := by
  unfold after
  rw [List.mem_append, List.mem_reverse, List.mem_map]
  constructor
  · rintro (⟨e, he, rfl⟩ | hn)
    · exact Or.inl ⟨e.2, he⟩
    · exact Or.inr hn
  · rintro (⟨k, hk⟩ | hn)
    · exact Or.inl ⟨(n, k), hk, rfl⟩
    · exact Or.inr hn

/-- The tour itself. -/
inductive Tours (rule : ν → Plan ν μ) (bound : Nat) :
    Nat → Call ν μ → List ν → List (ν × Nat) → Prop where
  | tooDeep {d n V} (hd : bound < d) : Tours rule bound d (.node n) V []
  | seen {d n V} (hd : d ≤ bound) (hn : n ∈ V) : Tours rule bound d (.node n) V []
  | enter {d n V es} (hd : d ≤ bound) (hn : n ∉ V)
      (h : Tours rule bound d (.tree (rule n)) (n :: V) es) :
      Tours rule bound d (.node n) V ((n, d) :: es)
  | leaf {d ms V} : Tours rule bound d (.tree (.leaf ms)) V []
  | goto {d n w hinted V es} (h : Tours rule bound (d + w) (.node n) V es) :
      Tours rule bound d (.tree (.goto n w hinted)) V es
  | any {d ps V es} (h : Tours rule bound d (.anyOf ps) V es) :
      Tours rule bound d (.tree (.any ps)) V es
  | anyNil {d V} : Tours rule bound d (.anyOf []) V []
  | anyCons {d p ps V es es'} (hp : Tours rule bound d (.tree p) V es)
      (hps : Tours rule bound d (.anyOf ps) (after V es) es') :
      Tours rule bound d (.anyOf (p :: ps)) V (es ++ es')

/-- The graph determines the tour. -/
theorem Tours.unique {d : Nat} {c : Call ν μ} {V : List ν} {es : List (ν × Nat)}
    (h : Tours rule bound d c V es) :
    ∀ {es' : List (ν × Nat)}, Tours rule bound d c V es' → es = es' := by
  induction h with
  | tooDeep hd =>
    intro es' h'
    cases h' with
    | tooDeep _ => rfl
    | seen _ _ => rfl
    | enter hd' _ _ => omega
  | seen hd hn =>
    intro es' h'
    cases h' with
    | tooDeep _ => rfl
    | seen _ _ => rfl
    | enter _ hn' _ => exact absurd hn hn'
  | enter hd hn _ ih =>
    intro es' h'
    cases h' with
    | tooDeep hd' => omega
    | seen _ hn' => exact absurd hn' hn
    | enter _ _ h' => rw [ih h']
  | leaf => intro es' h'; cases h'; rfl
  | goto _ ih => intro es' h'; cases h' with | goto h' => exact ih h'
  | any _ ih => intro es' h'; cases h' with | any h' => exact ih h'
  | anyNil => intro es' h'; cases h'; rfl
  | anyCons _ _ ihp ihps =>
    intro es' h'
    cases h' with
    | anyCons hp' hps' =>
      obtain rfl := ihp hp'
      rw [ihps hps']

/-- Nothing is entered below the bound. -/
theorem Tours.depth_le {d : Nat} {c : Call ν μ} {V : List ν} {es : List (ν × Nat)}
    (h : Tours rule bound d c V es) : ∀ e ∈ es, e.2 ≤ bound := by
  induction h with
  | tooDeep _ | seen _ _ | leaf | anyNil => intro e he; cases he
  | enter hd _ _ ih =>
    intro e he
    rcases List.mem_cons.mp he with rfl | he
    · exact hd
    · exact ih e he
  | goto _ ih => exact ih
  | any _ ih => exact ih
  | anyCons _ _ ihp ihps =>
    intro e he
    rcases List.mem_append.mp he with he | he
    · exact ihp e he
    · exact ihps e he

/-! ## Derivations -/

/-- A tree lists a member outright. -/
inductive Lists (m : μ) : Plan ν μ → Prop where
  | leaf {ms} (h : m ∈ ms) : Lists m (.leaf ms)
  | any {p ps} (hp : p ∈ ps) (h : Lists m p) : Lists m (.any ps)

/-- `Finds rule m p k`: tree `p` leads to the member `m` in `k` hops. -/
inductive Finds (rule : ν → Plan ν μ) (m : μ) : Plan ν μ → Nat → Prop where
  | leaf {ms} (h : m ∈ ms) : Finds rule m (.leaf ms) 0
  | goto {n w hinted k} (h : Finds rule m (rule n) k) : Finds rule m (.goto n w hinted) (w + k)
  | any {p ps k} (hp : p ∈ ps) (h : Finds rule m p k) : Finds rule m (.any ps) k

theorem Lists.finds {p : Plan ν μ} (h : Lists m p) : Finds rule m p 0 := by
  induction h with
  | leaf h => exact .leaf h
  | any hp _ ih => exact .any hp ih

/-- A call leads to the member in `k` hops. -/
def CallFinds (rule : ν → Plan ν μ) (m : μ) (k : Nat) : Call ν μ → Prop
  | .node n => Finds rule m (rule n) k
  | .tree p => Finds rule m p k
  | .anyOf ps => ∃ p ∈ ps, Finds rule m p k
  | .allOf _ => False

/-- **The depth of an entry is the length of a path.**  What an entered node finds in `j` hops, the
call finds in as many hops more as the node is deeper. -/
theorem Tours.finds {d : Nat} {c : Call ν μ} {V : List ν} {es : List (ν × Nat)}
    (h : Tours rule bound d c V es) : ∀ e ∈ es, d ≤ e.2 ∧
      ∀ j, Finds rule m (rule e.1) j → CallFinds rule m (e.2 - d + j) c := by
  induction h with
  | tooDeep _ | seen _ _ | leaf | anyNil => intro e he; cases he
  | enter _ _ _ ih =>
    intro e he
    rcases List.mem_cons.mp he with rfl | he
    · refine ⟨le_refl _, fun j hj => ?_⟩
      show Finds rule m _ _
      rw [Nat.sub_self, Nat.zero_add]
      exact hj
    · exact ih e he
  | @goto d n w hinted V es _ ih =>
    intro e he
    obtain ⟨hle, hfinds⟩ := ih e he
    refine ⟨by omega, fun j hj => ?_⟩
    have hgoto : Finds rule m (.goto n w hinted) (w + (e.2 - (d + w) + j)) := .goto (hfinds j hj)
    have hsum : w + (e.2 - (d + w) + j) = e.2 - d + j := by omega
    rw [hsum] at hgoto
    exact hgoto
  | any _ ih =>
    intro e he
    obtain ⟨hle, hfinds⟩ := ih e he
    refine ⟨hle, fun j hj => ?_⟩
    obtain ⟨p, hp, hk⟩ := hfinds j hj
    exact Finds.any hp hk
  | anyCons _ _ ihp ihps =>
    intro e he
    rcases List.mem_append.mp he with he | he
    · obtain ⟨hle, hfinds⟩ := ihp e he
      exact ⟨hle, fun j hj => ⟨_, List.mem_cons_self, hfinds j hj⟩⟩
    · obtain ⟨hle, hfinds⟩ := ihps e he
      refine ⟨hle, fun j hj => ?_⟩
      obtain ⟨p, hp, hk⟩ := hfinds j hj
      exact ⟨p, List.mem_cons_of_mem _ hp, hk⟩

/-! ## What a tour collects -/

/-- A call lists the member outright. -/
def CallLists (m : μ) : Call ν μ → Prop
  | .node _ => False
  | .tree p => Lists m p
  | .anyOf ps => ∃ p ∈ ps, Lists m p
  | .allOf _ => False

/-- A call with the tour `es` collects the member at depth `k`: it lists it itself, or it enters a
    node there that does. -/
def Yields (rule : ν → Plan ν μ) (d : Nat) (c : Call ν μ) (es : List (ν × Nat)) (m : μ) (k : Nat) :
    Prop :=
  (CallLists m c ∧ k = d) ∨ ∃ n, (n, k) ∈ es ∧ Lists m (rule n)

theorem yields_node_cons {d : Nat} {n : ν} {es : List (ν × Nat)} {k : Nat} :
    Yields rule d (.node n) ((n, d) :: es) m k ↔ Yields rule d (.tree (rule n)) es m k := by
  unfold Yields
  simp only [CallLists, false_and, false_or, List.mem_cons, Prod.mk.injEq]
  constructor
  · rintro ⟨n', ⟨rfl, rfl⟩ | he, hlists⟩
    · exact Or.inl ⟨hlists, rfl⟩
    · exact Or.inr ⟨n', he, hlists⟩
  · rintro (⟨hlists, rfl⟩ | ⟨n', he, hlists⟩)
    · exact ⟨n, Or.inl ⟨rfl, rfl⟩, hlists⟩
    · exact ⟨n', Or.inr he, hlists⟩

theorem yields_node_nil {d : Nat} {n : ν} {k : Nat} : ¬ Yields rule d (.node n) [] m k := by
  rintro (⟨h, -⟩ | ⟨n', h, -⟩)
  · exact h
  · cases h

theorem yields_goto {d w : Nat} {n : ν} {hinted : Bool} {es : List (ν × Nat)} {k : Nat} :
    Yields rule d (.tree (.goto n w hinted)) es m k ↔ Yields rule (d + w) (.node n) es m k := by
  have hno : ¬ Lists m (.goto n w hinted : Plan ν μ) := by
    intro h
    cases h
  unfold Yields
  simp [CallLists, hno]

theorem yields_leaf {d : Nat} {ms : List μ} {k : Nat} :
    Yields rule d (.tree (.leaf ms)) [] m k ↔ m ∈ ms ∧ k = d := by
  have hlists : Lists m (.leaf ms : Plan ν μ) ↔ m ∈ ms := by
    constructor
    · intro h
      cases h with
      | leaf h => exact h
    · exact .leaf
  unfold Yields
  simp [CallLists, hlists]

theorem yields_anyNil {d : Nat} {k : Nat} : ¬ Yields rule d (.anyOf []) [] m k := by
  rintro (⟨⟨p, hp, -⟩, -⟩ | ⟨n', h, -⟩)
  · cases hp
  · cases h

theorem yields_any {d : Nat} {ps : List (Plan ν μ)} {es : List (ν × Nat)} {k : Nat} :
    Yields rule d (.tree (.any ps)) es m k ↔ Yields rule d (.anyOf ps) es m k := by
  have hlists : Lists m (.any ps) ↔ ∃ p ∈ ps, Lists m p := by
    constructor
    · intro h
      cases h with
      | any hp h => exact ⟨_, hp, h⟩
    · rintro ⟨p, hp, h⟩
      exact .any hp h
  unfold Yields
  rw [CallLists, CallLists, hlists]

theorem yields_anyCons {d : Nat} {p : Plan ν μ} {ps : List (Plan ν μ)} {es es' : List (ν × Nat)}
    {k : Nat} : Yields rule d (.anyOf (p :: ps)) (es ++ es') m k ↔
      Yields rule d (.tree p) es m k ∨ Yields rule d (.anyOf ps) es' m k := by
  unfold Yields
  simp only [CallLists, List.exists_mem_cons_iff, List.mem_append, or_and_right, exists_or]
  exact or_or_or_comm

/-! ## Graphs without detours -/

/-- There is a path of `k` hops to a node. -/
inductive Leads (rule : ν → Plan ν μ) (root : ν) : ν → Nat → Prop where
  | root : Leads rule root root 0
  | step {n d g} (h : Leads rule root n d) (hg : g ∈ (rule n).gotos) :
      Leads rule root g.1 (d + g.2)

/-- All paths to a node are of one length. -/
def OneLength (rule : ν → Plan ν μ) (root : ν) : Prop :=
  ∀ n j k, Leads rule root n j → Leads rule root n k → j = k

variable {root : ν}

/-- A list of nodes, each with one length, that no path leaves. -/
theorem oneLength_of_closed (levels : List (ν × Nat)) (hroot : (root, 0) ∈ levels)
    (hclosed : ∀ e ∈ levels, ∀ g ∈ (rule e.1).gotos, (g.1, e.2 + g.2) ∈ levels)
    (honce : ∀ e ∈ levels, ∀ e' ∈ levels, e.1 = e'.1 → e.2 = e'.2) : OneLength rule root := by
  have hleads : ∀ n k, Leads rule root n k → (n, k) ∈ levels := by
    intro n k h
    induction h with
    | root => exact hroot
    | step _ hg ih => exact hclosed _ ih _ hg
  exact fun n j k hj hk => honce (n, j) (hleads n j hj) (n, k) (hleads n k hk) rfl

/-- The nodes a call defers to. -/
def CallDefers (n : ν) (w : Nat) : Call ν μ → Prop
  | .node n' => n' = n ∧ w = 0
  | .tree p => (n, w) ∈ p.gotos
  | .anyOf ps => (n, w) ∈ Plan.gotosIn ps
  | .allOf _ => False

/-- A tour enters every node its call defers to within the bound, unless it was entered before. -/
theorem Tours.enters {d : Nat} {c : Call ν μ} {V : List ν} {es : List (ν × Nat)}
    (h : Tours rule bound d c V es) :
    ∀ {n w}, CallDefers n w c → d + w ≤ bound → n ∈ after V es := by
  induction h with
  | tooDeep hd =>
    rintro n w ⟨rfl, rfl⟩ hw
    omega
  | seen _ hn =>
    rintro n w ⟨rfl, rfl⟩ -
    exact hn
  | enter _ _ _ _ =>
    rintro n w ⟨rfl, rfl⟩ -
    exact mem_after.mpr (Or.inl ⟨_, List.mem_cons_self ..⟩)
  | leaf | anyNil =>
    intro n w hdefers
    cases hdefers
  | goto _ ih =>
    intro n w hdefers hw
    obtain ⟨rfl, rfl⟩ := Prod.mk.inj (List.mem_singleton.mp hdefers)
    exact ih ⟨rfl, rfl⟩ hw
  | any _ ih => exact ih
  | anyCons _ _ ihp ihps =>
    intro n w hdefers hw
    rw [after_append]
    rcases List.mem_append.mp hdefers with hdefers | hdefers
    · exact mem_after.mpr (Or.inr (ihp hdefers hw))
    · exact ihps hdefers hw

/-- What an entered node defers to within the bound is entered too. -/
theorem Tours.closed {d : Nat} {c : Call ν μ} {V : List ν} {es : List (ν × Nat)}
    (h : Tours rule bound d c V es) :
    ∀ e ∈ es, ∀ g ∈ (rule e.1).gotos, e.2 + g.2 ≤ bound → g.1 ∈ after V es := by
  induction h with
  | tooDeep _ | seen _ _ | leaf | anyNil => intro e he; cases he
  | enter _ _ h ih =>
    intro e he g hg hbound
    rw [after_cons]
    rcases List.mem_cons.mp he with rfl | he
    · exact h.enters hg hbound
    · exact ih e he g hg hbound
  | goto _ ih => exact ih
  | any _ ih => exact ih
  | anyCons _ _ ihp ihps =>
    intro e he g hg hbound
    rw [after_append]
    rcases List.mem_append.mp he with he | he
    · exact mem_after.mpr (Or.inr (ihp e he g hg hbound))
    · exact ihps e he g hg hbound

/-- Every entry ends a path. -/
theorem Tours.leads {d : Nat} {c : Call ν μ} {V : List ν} {es : List (ν × Nat)}
    (h : Tours rule bound d c V es)
    (hcall : ∀ n w, CallDefers n w c → Leads rule root n (d + w)) :
    ∀ e ∈ es, Leads rule root e.1 e.2 := by
  induction h with
  | tooDeep _ | seen _ _ | leaf | anyNil => intro e he; cases he
  | enter _ _ _ ih =>
    intro e he
    have hn := hcall _ 0 ⟨rfl, rfl⟩
    rcases List.mem_cons.mp he with rfl | he
    · exact hn
    · exact ih (fun n w hg => hn.step hg) e he
  | goto _ ih =>
    refine ih fun n w hdefers => ?_
    obtain ⟨rfl, rfl⟩ := hdefers
    exact hcall _ _ (List.mem_singleton.mpr rfl)
  | any _ ih => exact ih hcall
  | anyCons _ _ ihp ihps =>
    intro e he
    rcases List.mem_append.mp he with he | he
    · exact ihp (fun n w hdefers => hcall n w (List.mem_append_left _ hdefers)) e he
    · exact ihps (fun n w hdefers => hcall n w (List.mem_append_right _ hdefers)) e he

/-- **Without detours** a tour meets every member within the bound at the length of each of its
derivations. -/
theorem Tours.meets {es : List (ν × Nat)} {k : Nat} (h : Tours rule bound 0 (.node root) [] es)
    (hone : OneLength rule root) (hfinds : Finds rule m (rule root) k) (hk : k ≤ bound) :
    ∃ n, (n, k) ∈ es ∧ Lists m (rule n) := by
  have hleads : ∀ e ∈ es, Leads rule root e.1 e.2 := by
    refine h.leads fun n w hdefers => ?_
    obtain ⟨rfl, rfl⟩ := hdefers
    exact .root
  -- a node that is entered is entered at the end of any path to it
  have hentered : ∀ {n d}, Leads rule root n d → n ∈ after [] es → (n, d) ∈ es := by
    intro n d hn hmem
    obtain ⟨e, he⟩ := (mem_after.mp hmem).resolve_right List.not_mem_nil
    obtain rfl := hone n e d (hleads _ he) hn
    exact he
  have hmeets : ∀ {p : Plan ν μ} {k}, Finds rule m p k → ∀ d,
      (∀ g ∈ p.gotos, Leads rule root g.1 (d + g.2) ∧ (d + g.2 ≤ bound → g.1 ∈ after [] es)) →
      d + k ≤ bound → (Lists m p ∧ k = 0) ∨ ∃ n, (n, d + k) ∈ es ∧ Lists m (rule n) := by
    intro p k hp
    induction hp with
    | leaf hm => exact fun d _ _ => Or.inl ⟨.leaf hm, rfl⟩
    | @goto n w hinted k _ ih =>
      intro d hgotos hbound
      obtain ⟨hn, hwithin⟩ := hgotos (n, w) (List.mem_singleton.mpr rfl)
      have he := hentered hn (hwithin (by omega))
      refine Or.inr ?_
      rcases ih (d + w) (fun g hg => ⟨hn.step hg, h.closed _ he g hg⟩) (by omega) with
        ⟨hlists, rfl⟩ | ⟨n', hn', hlists⟩
      · exact ⟨n, he, hlists⟩
      · rw [Nat.add_assoc] at hn'
        exact ⟨n', hn', hlists⟩
    | any hp _ ih =>
      intro d hgotos hbound
      rcases ih d (fun g hg => hgotos g (Plan.gotos_subset_gotosIn hp hg)) hbound with
        ⟨hlists, rfl⟩ | hmet
      · exact Or.inl ⟨.any hp hlists, rfl⟩
      · exact Or.inr hmet
  have hroot : (root, 0) ∈ es := hentered .root (h.enters ⟨rfl, rfl⟩ (Nat.zero_le _))
  have hgotos : ∀ g ∈ (rule root).gotos,
      Leads rule root g.1 (0 + g.2) ∧ (0 + g.2 ≤ bound → g.1 ∈ after [] es) :=
    fun g hg => ⟨Leads.root.step hg, h.closed _ hroot g hg⟩
  rcases hmeets hfinds 0 hgotos (by omega) with ⟨hlists, rfl⟩ | ⟨n, hn, hlists⟩
  · exact ⟨root, hroot, hlists⟩
  · rw [Nat.zero_add] at hn
    exact ⟨n, hn, hlists⟩

end Search
