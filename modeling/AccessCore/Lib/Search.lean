/-
  Depth-bounded depth-first search over a plan graph, as a big-step relation.

  A search looks for one member.  It carries a `Scope`: the nodes visited so far and whether the
  depth bound has cut the walk.  A union (`any`) shares the scope and stops at its first grant.
  Every operand of an intersection (`all`) or a difference (`diff`) starts a fresh scope, and an
  operand that was cut makes the whole composite fail and marks the outer scope as cut.  A hint
  may answer a `goto` without a visit, when the hinted depth fits the bound.

  `Runs S d c s g s' tr` says that call `c`, made at depth `d` in scope `s`, ends with answer `g`
  in scope `s'`; `tr` lists what happened on the way.

  The main result is `Runs.exact`: for any pair `P`, `Q` of node sets that are least with
  respect to each other, a grant is in `P`, and a refusal in a scope that was not cut is outside
  `Q`.  The invariant behind the refusal half is that the visited nodes of an uncut scope block
  each other (`Blocked`), so they form an unfounded set.
-/
import AccessCore.Lib.Plan

/-- A search problem: the rule, the hints, the depth bound and the member looked for. -/
structure Search (ν μ : Type) where
  rule : ν → Plan ν μ
  hint : ν → Option Nat
  bound : Nat
  target : μ

/-- The mutable state of one scope: visited nodes (latest first) and the cut flag. -/
structure Scope (ν : Type) where
  visited : List ν
  cut : Bool

/-- What can happen during a search: a node is expanded, a node lies below the bound, an operand
    of a composite turns out to be cut. -/
inductive Event (ν : Type) where
  | visit (node : ν) (depth : Nat)
  | tooDeep (node : ν) (depth : Nat)
  | cutOperand

/-- The four kinds of call a search makes. -/
inductive Call (ν μ : Type) where
  | node (n : ν)
  | tree (p : Plan ν μ)
  | anyOf (ps : List (Plan ν μ))
  | allOf (ps : List (Plan ν μ))

/-- A scope in which nothing has been visited. -/
def Scope.fresh {ν : Type} : Scope ν := ⟨[], false⟩

@[simp] theorem Scope.fresh_visited {ν : Type} : (Scope.fresh : Scope ν).visited = [] := rfl
@[simp] theorem Scope.fresh_cut {ν : Type} : (Scope.fresh : Scope ν).cut = false := rfl

namespace Search

variable {ν μ : Type} {S : Search ν μ}

/-- A hint answers for node `n` met at `depth`: the hinted distance still fits the bound. -/
def Hinted (S : Search ν μ) (n : ν) (depth : Nat) : Prop :=
  ∃ k, S.hint n = some k ∧ depth + k ≤ S.bound

/-- The search itself. -/
inductive Runs (S : Search ν μ) :
    Nat → Call ν μ → Scope ν → Bool → Scope ν → List (Event ν) → Prop where
  | tooDeep {d n s} (hd : S.bound < d) :
      Runs S d (.node n) s false ⟨s.visited, true⟩ [.tooDeep n d]
  | seen {d n s} (hd : d ≤ S.bound) (hn : n ∈ s.visited) : Runs S d (.node n) s false s []
  | visit {d n s g s' tr} (hd : d ≤ S.bound) (hn : n ∉ s.visited)
      (hrun : Runs S d (.tree (S.rule n)) ⟨n :: s.visited, s.cut⟩ g s' tr) :
      Runs S d (.node n) s g s' (.visit n d :: tr)
  | leafHit {d ms s} (hm : S.target ∈ ms) : Runs S d (.tree (.leaf ms)) s true s []
  | leafMiss {d ms s} (hm : S.target ∉ ms) : Runs S d (.tree (.leaf ms)) s false s []
  | hinted {d n w s} (hh : Hinted S n (d + w)) : Runs S d (.tree (.goto n w true)) s true s []
  | goto {d n w h s g s' tr} (hh : h = true → ¬ Hinted S n (d + w))
      (hrun : Runs S (d + w) (.node n) s g s' tr) : Runs S d (.tree (.goto n w h)) s g s' tr
  | any {d ps s g s' tr} (hrun : Runs S d (.anyOf ps) s g s' tr) :
      Runs S d (.tree (.any ps)) s g s' tr
  | all {d ps s g s' tr} (hrun : Runs S d (.allOf ps) s g s' tr) :
      Runs S d (.tree (.all ps)) s g s' tr
  | anyNil {d s} : Runs S d (.anyOf []) s false s []
  | anyHit {d p ps s s' tr} (hrun : Runs S d (.tree p) s true s' tr) :
      Runs S d (.anyOf (p :: ps)) s true s' tr
  | anyMiss {d p ps s s₁ g s₂ tr₁ tr₂} (hp : Runs S d (.tree p) s false s₁ tr₁)
      (hps : Runs S d (.anyOf ps) s₁ g s₂ tr₂) :
      Runs S d (.anyOf (p :: ps)) s g s₂ (tr₁ ++ tr₂)
  | allNil {d s} : Runs S d (.allOf []) s true s []
  | allCut {d p ps s g s₁ tr} (hp : Runs S d (.tree p) .fresh g s₁ tr) (hcut : s₁.cut = true) :
      Runs S d (.allOf (p :: ps)) s false ⟨s.visited, true⟩ (tr ++ [.cutOperand])
  | allMiss {d p ps s s₁ tr} (hp : Runs S d (.tree p) .fresh false s₁ tr)
      (hcut : s₁.cut = false) : Runs S d (.allOf (p :: ps)) s false s tr
  | allHit {d p ps s s₁ g s₂ tr₁ tr₂} (hp : Runs S d (.tree p) .fresh true s₁ tr₁)
      (hcut : s₁.cut = false) (hps : Runs S d (.allOf ps) s g s₂ tr₂) :
      Runs S d (.allOf (p :: ps)) s g s₂ (tr₁ ++ tr₂)
  | baseCut {d a b s g s₁ tr} (ha : Runs S d (.tree a) .fresh g s₁ tr) (hcut : s₁.cut = true) :
      Runs S d (.tree (.diff a b)) s false ⟨s.visited, true⟩ (tr ++ [.cutOperand])
  | baseMiss {d a b s s₁ tr} (ha : Runs S d (.tree a) .fresh false s₁ tr)
      (hcut : s₁.cut = false) : Runs S d (.tree (.diff a b)) s false s tr
  | subCut {d a b s s₁ g s₂ tr₁ tr₂} (ha : Runs S d (.tree a) .fresh true s₁ tr₁)
      (hcut₁ : s₁.cut = false) (hb : Runs S d (.tree b) .fresh g s₂ tr₂)
      (hcut₂ : s₂.cut = true) :
      Runs S d (.tree (.diff a b)) s false ⟨s.visited, true⟩ (tr₁ ++ tr₂ ++ [.cutOperand])
  | sub {d a b s s₁ g s₂ tr₁ tr₂} (ha : Runs S d (.tree a) .fresh true s₁ tr₁)
      (hcut₁ : s₁.cut = false) (hb : Runs S d (.tree b) .fresh g s₂ tr₂)
      (hcut₂ : s₂.cut = false) : Runs S d (.tree (.diff a b)) s (!g) s (tr₁ ++ tr₂)

/-! ## The frame of a run -/

/-- Visited nodes stay visited and a cut scope stays cut. -/
theorem Runs.frame {d : Nat} {c : Call ν μ} {s s' : Scope ν} {g : Bool} {tr : List (Event ν)}
    (h : Runs S d c s g s' tr) :
    s.visited ⊆ s'.visited ∧ (s.cut = true → s'.cut = true) := by
  induction h with
  | tooDeep _ => exact ⟨List.Subset.refl _, fun _ => rfl⟩
  | visit _ _ _ ih => exact ⟨List.Subset.trans (List.subset_cons_self ..) ih.1, ih.2⟩
  | goto _ _ ih => exact ih
  | any _ ih => exact ih
  | all _ ih => exact ih
  | anyHit _ ih => exact ih
  | anyMiss _ _ ih₁ ih₂ => exact ⟨List.Subset.trans ih₁.1 ih₂.1, fun hc => ih₂.2 (ih₁.2 hc)⟩
  | allHit _ _ _ _ ih => exact ih
  | allCut _ _ _ => exact ⟨List.Subset.refl _, fun _ => rfl⟩
  | baseCut _ _ _ => exact ⟨List.Subset.refl _, fun _ => rfl⟩
  | subCut _ _ _ _ _ _ => exact ⟨List.Subset.refl _, fun _ => rfl⟩
  | seen _ _ | leafHit _ | leafMiss _ | hinted _ | anyNil | allNil | allMiss _ _ _ | baseMiss _ _ _
  | sub _ _ _ _ _ _ => exact ⟨List.Subset.refl _, id⟩

/-- A scope that ends uncut was uncut all along. -/
theorem Runs.uncut {d : Nat} {c : Call ν μ} {s s' : Scope ν} {g : Bool} {tr : List (Event ν)}
    (h : Runs S d c s g s' tr) (hc : s'.cut = false) : s.cut = false := by
  by_contra hne
  have := h.frame.2 (by simpa using hne)
  simp [this] at hc

/-! ## Blocked nodes -/

section Exact

variable {P Q : Set ν}

mutual
/-- `Blocked t P Q V p` — with the nodes of `V` refused, `p` gives `t` no way in: its leaves miss
    `t`, its references lead into `V`, and its composites do not hold in the upper reading. -/
def Blocked (t : μ) (P Q : Set ν) (V : List ν) : Plan ν μ → Prop
  | .leaf ms => t ∉ ms
  | .goto n _ _ => n ∈ V
  | .any ps => BlockedEvery t P Q V ps
  | .all ps => ¬ Plan.Holds t Q P (.all ps)
  | .diff a b => ¬ Plan.Holds t Q P (.diff a b)
/-- Every tree of the list is blocked. -/
def BlockedEvery (t : μ) (P Q : Set ν) (V : List ν) : List (Plan ν μ) → Prop
  | [] => True
  | p :: ps => Blocked t P Q V p ∧ BlockedEvery t P Q V ps
end

variable {t : μ} {V : List ν}

theorem blocked_any {ps : List (Plan ν μ)} :
    Blocked t P Q V (.any ps) ↔ ∀ p ∈ ps, Blocked t P Q V p := by
  rw [Blocked]
  induction ps with
  | nil => simp [BlockedEvery]
  | cons p ps ih => simp [BlockedEvery, ih]

theorem Blocked.mono {V' : List ν} (hV : V ⊆ V') (p : Plan ν μ) :
    Blocked t P Q V p → Blocked t P Q V' p := by
  induction p with
  | leaf ms => simp [Blocked]
  | goto n w h => simp only [Blocked]; exact fun hn => hV hn
  | any ps ih => exact fun h => blocked_any.mpr fun p hp => ih p hp (blocked_any.mp h p hp)
  | all ps _ => simp [Blocked]
  | diff a b _ _ => simp [Blocked]

/-- A blocked tree is not derived from the facts of `Q` that lie outside `V`. -/
theorem Blocked.not_derives (p : Plan ν μ) (hb : Blocked t P Q V p) :
    ¬ Plan.Derives t (Q \ {n | n ∈ V}) (Plan.Holds t P Q) p := by
  intro hd
  induction p with
  | leaf ms => exact hb (Plan.derives_leaf.mp hd)
  | goto n w h => exact (Plan.derives_goto.mp hd).2 hb
  | any ps ih =>
    obtain ⟨p, hp, hd⟩ := Plan.derives_any.mp hd
    exact ih p hp (blocked_any.mp hb p hp) hd
  | all ps _ =>
    exact hb ((Plan.holds_iff_derives _).mpr
      (Plan.Derives.mono (fun _ h => h) _ Set.sdiff_subset hd))
  | diff a b _ _ =>
    exact hb ((Plan.holds_iff_derives _).mpr
      (Plan.Derives.mono (fun _ h => h) _ Set.sdiff_subset hd))

/-- Nodes that block each other form an unfounded set: none of them is in the upper set. -/
theorem unfounded {rule : ν → Plan ν μ} (hQ : Plan.Least rule t Q (Plan.Holds t P Q))
    (hV : ∀ m ∈ V, Blocked t P Q V (rule m)) : ∀ m ∈ V, m ∉ Q := by
  have hsub : Q ⊆ Q \ {n | n ∈ V} := by
    refine hQ.least _ fun n hn => ⟨?_, fun hnV => (hV n hnV).not_derives _ hn⟩
    exact hQ.closed n (Plan.Derives.mono (fun _ h => h) _ Set.sdiff_subset hn)
  exact fun m hm hmQ => (hsub hmQ).2 hm

/-- A tree blocked by an unfounded set does not hold in the upper reading. -/
theorem refuted {rule : ν → Plan ν μ} (hQ : Plan.Least rule t Q (Plan.Holds t P Q))
    (hV : ∀ m ∈ V, Blocked t P Q V (rule m)) {p : Plan ν μ} (hb : Blocked t P Q V p) :
    ¬ Plan.Holds t Q P p := by
  intro hp
  refine hb.not_derives _ ?_
  have hQV : Q ⊆ Q \ {n | n ∈ V} := fun m hm => ⟨hm, fun hmV => unfounded hQ hV m hmV hm⟩
  exact Plan.Derives.mono (fun _ h => h) _ hQV ((Plan.holds_iff_derives _).mp hp)

/-! ## Exactness -/

/-- What an answer means for the call that gave it: a grant puts the call in the lower reading; a
    refusal whose scope stayed uncut blocks it. -/
def Answer (S : Search ν μ) (P Q : Set ν) (V : List ν) (cut : Bool) : Call ν μ → Bool → Prop
  | .node n, g => (g = true → n ∈ P) ∧ (g = false → cut = false → n ∈ V)
  | .tree p, g => (g = true → Plan.Holds S.target P Q p) ∧
      (g = false → cut = false → Blocked S.target P Q V p)
  | .anyOf ps, g => (g = true → ∃ p ∈ ps, Plan.Holds S.target P Q p) ∧
      (g = false → cut = false → ∀ p ∈ ps, Blocked S.target P Q V p)
  | .allOf ps, g => (g = true → ∀ p ∈ ps, Plan.Holds S.target P Q p) ∧
      (g = false → cut = false → ∃ p ∈ ps, ¬ Plan.Holds S.target Q P p)

/-- The nodes a run has newly visited block each other once the scope is refused uncut. -/
def Closing (S : Search ν μ) (P Q : Set ν) (s s' : Scope ν) (g : Bool) : Prop :=
  g = false → s'.cut = false →
    ∀ m ∈ s'.visited, m ∉ s.visited → Blocked S.target P Q s'.visited (S.rule m)

/-- **The search is exact up to the cut.**  The induction is on the run; operands are handled by
    `refuted`, since their scopes start fresh and so consist of newly visited nodes only. -/
theorem Runs.exact (hP : Plan.Least S.rule S.target P (Plan.Holds S.target Q P))
    (hQ : Plan.Least S.rule S.target Q (Plan.Holds S.target P Q))
    (hint : ∀ m k, S.hint m = some k → m ∈ P)
    {d : Nat} {c : Call ν μ} {s s' : Scope ν} {g : Bool} {tr : List (Event ν)}
    (h : Runs S d c s g s' tr) :
    Answer S P Q s'.visited s'.cut c g ∧ Closing S P Q s s' g := by
  -- an operand refused in an uncut fresh scope does not hold in the upper reading
  have operand : ∀ {p : Plan ν μ} {s₁ : Scope ν}, s₁.cut = false →
      Answer S P Q s₁.visited s₁.cut (.tree p) false ∧ Closing S P Q .fresh s₁ false →
      ¬ Plan.Holds S.target Q P p := by
    rintro p s₁ hcut ⟨hans, hcl⟩
    exact refuted hQ (fun m hm => hcl rfl hcut m hm List.not_mem_nil) (hans.2 rfl hcut)
  have stay : ∀ (s : Scope ν) (g : Bool), Closing S P Q s s g :=
    fun s g _ _ m hm hm' => absurd hm hm'
  have cutAway : ∀ (s : Scope ν) (V : List ν) (g : Bool), Closing S P Q s ⟨V, true⟩ g :=
    fun s V g _ hc => absurd hc (by simp)
  induction h with
  | tooDeep _ => exact ⟨⟨by simp, by simp⟩, cutAway _ _ _⟩
  | seen _ hn => exact ⟨⟨by simp, fun _ _ => hn⟩, stay _ _⟩
  | @visit d n s g s' tr hd hn hrun ih =>
    obtain ⟨⟨hgrant, hrefuse⟩, hcl⟩ := ih
    have hmem : n ∈ s'.visited := hrun.frame.1 (List.mem_cons_self ..)
    refine ⟨⟨fun hg => hP.closed n ((Plan.holds_iff_derives _).mp (hgrant hg)),
      fun _ _ => hmem⟩, fun hg hcut m hm hms => ?_⟩
    by_cases hmn : m = n
    · subst hmn; exact hrefuse hg hcut
    · exact hcl hg hcut m hm (by simp [hmn, hms])
  | leafHit hm => exact ⟨⟨fun _ => Plan.holds_leaf.mpr hm, by simp⟩, stay _ _⟩
  | leafMiss hm => exact ⟨⟨by simp, fun _ _ => hm⟩, stay _ _⟩
  | hinted hh =>
    obtain ⟨k, hk, _⟩ := hh
    exact ⟨⟨fun _ => Plan.holds_goto.mpr (hint _ k hk), by simp⟩, stay _ _⟩
  | goto _ _ ih =>
    exact ⟨⟨fun hg => Plan.holds_goto.mpr (ih.1.1 hg), fun hg hcut => ih.1.2 hg hcut⟩, ih.2⟩
  | any _ ih =>
    exact ⟨⟨fun hg => Plan.holds_any.mpr (ih.1.1 hg),
      fun hg hcut => blocked_any.mpr (ih.1.2 hg hcut)⟩, ih.2⟩
  | all _ ih =>
    refine ⟨⟨fun hg => Plan.holds_all.mpr (ih.1.1 hg), fun hg hcut hall => ?_⟩, ih.2⟩
    obtain ⟨p, hp, hno⟩ := ih.1.2 hg hcut
    exact hno (Plan.holds_all.mp hall p hp)
  | anyNil => exact ⟨⟨by simp, by simp⟩, stay _ _⟩
  | anyHit _ ih =>
    exact ⟨⟨fun _ => ⟨_, List.mem_cons_self .., ih.1.1 rfl⟩, by simp⟩,
      fun hg => absurd hg (by simp)⟩
  | @anyMiss d p ps s s₁ g s₂ tr₁ tr₂ _ hps ih₁ ih₂ =>
    refine ⟨⟨fun hg => ?_, fun hg hcut q hq => ?_⟩, fun hg hcut m hm hms => ?_⟩
    · obtain ⟨q, hq, hh⟩ := ih₂.1.1 hg
      exact ⟨q, List.mem_cons_of_mem _ hq, hh⟩
    · rcases List.mem_cons.mp hq with rfl | hq
      · exact Blocked.mono hps.frame.1 _ (ih₁.1.2 rfl (hps.uncut hcut))
      · exact ih₂.1.2 hg hcut q hq
    · by_cases hm₁ : m ∈ s₁.visited
      · exact Blocked.mono hps.frame.1 _ (ih₁.2 rfl (hps.uncut hcut) m hm₁ hms)
      · exact ih₂.2 hg hcut m hm hm₁
  | allNil => exact ⟨⟨by simp, by simp⟩, stay _ _⟩
  | allCut _ _ _ => exact ⟨⟨by simp, by simp⟩, cutAway _ _ _⟩
  | allMiss _ hcut ih =>
    exact ⟨⟨by simp, fun _ _ => ⟨_, List.mem_cons_self .., operand hcut ih⟩⟩, stay _ _⟩
  | allHit _ _ _ ih₁ ih₂ =>
    refine ⟨⟨fun hg q hq => ?_, fun hg hcut => ?_⟩, ih₂.2⟩
    · rcases List.mem_cons.mp hq with rfl | hq
      · exact ih₁.1.1 rfl
      · exact ih₂.1.1 hg q hq
    · obtain ⟨q, hq, hno⟩ := ih₂.1.2 hg hcut
      exact ⟨q, List.mem_cons_of_mem _ hq, hno⟩
  | baseCut _ _ _ => exact ⟨⟨by simp, by simp⟩, cutAway _ _ _⟩
  | baseMiss _ hcut ih =>
    refine ⟨⟨by simp, fun _ _ hd => ?_⟩, stay _ _⟩
    exact operand hcut ih (Plan.holds_diff.mp hd).1
  | subCut _ _ _ _ _ _ => exact ⟨⟨by simp, by simp⟩, cutAway _ _ _⟩
  | @sub d a b s s₁ g s₂ tr₁ tr₂ _ _ _ hcut₂ iha ihb =>
    refine ⟨⟨fun hg => ?_, fun hg _ hd => ?_⟩, stay _ _⟩
    · obtain rfl : g = false := by simpa using hg
      exact Plan.holds_diff.mpr ⟨iha.1.1 rfl, operand hcut₂ ihb⟩
    · obtain rfl : g = true := by simpa using hg
      exact (Plan.holds_diff.mp hd).2 (ihb.1.1 rfl)

end Exact

/-! ## Determinism and locality -/

/-- A search has one answer, one final scope and one trace. -/
theorem Runs.unique {d : Nat} {c : Call ν μ} {s s' : Scope ν} {g : Bool} {tr : List (Event ν)}
    (h : Runs S d c s g s' tr) : ∀ {g' : Bool} {s'' : Scope ν} {tr' : List (Event ν)},
      Runs S d c s g' s'' tr' → g = g' ∧ s' = s'' ∧ tr = tr' := by
  induction h with
  | tooDeep hd =>
    intro g' s'' tr' h'
    cases h' with
    | tooDeep _ => exact ⟨rfl, rfl, rfl⟩
    | seen hd' _ => exact absurd hd' (by omega)
    | visit hd' _ _ => exact absurd hd' (by omega)
  | seen hd hn =>
    intro g' s'' tr' h'
    cases h' with
    | tooDeep hd' => exact absurd hd (by omega)
    | seen _ _ => exact ⟨rfl, rfl, rfl⟩
    | visit _ hn' _ => exact absurd hn hn'
  | visit hd hn _ ih =>
    intro g' s'' tr' h'
    cases h' with
    | tooDeep hd' => exact absurd hd (by omega)
    | seen _ hn' => exact absurd hn' hn
    | visit _ _ h' =>
      obtain ⟨rfl, rfl, rfl⟩ := ih h'
      exact ⟨rfl, rfl, rfl⟩
  | leafHit hm =>
    intro g' s'' tr' h'
    cases h' with
    | leafHit _ => exact ⟨rfl, rfl, rfl⟩
    | leafMiss hm' => exact absurd hm hm'
  | leafMiss hm =>
    intro g' s'' tr' h'
    cases h' with
    | leafHit hm' => exact absurd hm' hm
    | leafMiss _ => exact ⟨rfl, rfl, rfl⟩
  | hinted hh =>
    intro g' s'' tr' h'
    cases h' with
    | hinted _ => exact ⟨rfl, rfl, rfl⟩
    | goto hh' _ => exact absurd hh (hh' rfl)
  | goto hh _ ih =>
    intro g' s'' tr' h'
    cases h' with
    | hinted hh' => exact absurd hh' (hh rfl)
    | goto _ h' => exact ih h'
  | any _ ih => intro g' s'' tr' h'; cases h' with | any h' => exact ih h'
  | all _ ih => intro g' s'' tr' h'; cases h' with | all h' => exact ih h'
  | anyNil => intro g' s'' tr' h'; cases h'; exact ⟨rfl, rfl, rfl⟩
  | anyHit _ ih =>
    intro g' s'' tr' h'
    cases h' with
    | anyHit h' =>
      obtain ⟨_, rfl, rfl⟩ := ih h'
      exact ⟨rfl, rfl, rfl⟩
    | anyMiss h' _ => exact absurd (ih h').1 (by simp)
  | anyMiss _ _ ih₁ ih₂ =>
    intro g' s'' tr' h'
    cases h' with
    | anyHit h' => exact absurd (ih₁ h').1 (by simp)
    | anyMiss h₁ h₂ =>
      obtain ⟨_, rfl, rfl⟩ := ih₁ h₁
      obtain ⟨rfl, rfl, rfl⟩ := ih₂ h₂
      exact ⟨rfl, rfl, rfl⟩
  | allNil => intro g' s'' tr' h'; cases h'; exact ⟨rfl, rfl, rfl⟩
  | allCut _ hcut ih =>
    intro g' s'' tr' h'
    cases h' with
    | allCut h' _ => obtain ⟨rfl, rfl, rfl⟩ := ih h'; exact ⟨rfl, rfl, rfl⟩
    | allMiss h' hc => obtain ⟨_, rfl, _⟩ := ih h'; simp [hcut] at hc
    | allHit h' hc _ => obtain ⟨_, rfl, _⟩ := ih h'; simp [hcut] at hc
  | allMiss _ hcut ih =>
    intro g' s'' tr' h'
    cases h' with
    | allCut h' hc => obtain ⟨_, rfl, _⟩ := ih h'; simp [hcut] at hc
    | allMiss h' _ => obtain ⟨_, _, rfl⟩ := ih h'; exact ⟨rfl, rfl, rfl⟩
    | allHit h' _ _ => exact absurd (ih h').1 (by simp)
  | allHit _ hcut _ ih₁ ih₂ =>
    intro g' s'' tr' h'
    cases h' with
    | allCut h' hc => obtain ⟨_, rfl, _⟩ := ih₁ h'; simp [hcut] at hc
    | allMiss h' _ => exact absurd (ih₁ h').1 (by simp)
    | allHit h₁ _ h₂ =>
      obtain ⟨_, rfl, rfl⟩ := ih₁ h₁
      obtain ⟨rfl, rfl, rfl⟩ := ih₂ h₂
      exact ⟨rfl, rfl, rfl⟩
  | baseCut _ hcut ih =>
    intro g' s'' tr' h'
    cases h' with
    | baseCut h' _ => obtain ⟨rfl, rfl, rfl⟩ := ih h'; exact ⟨rfl, rfl, rfl⟩
    | baseMiss h' hc => obtain ⟨_, rfl, _⟩ := ih h'; simp [hcut] at hc
    | subCut h' hc _ _ => obtain ⟨_, rfl, _⟩ := ih h'; simp [hcut] at hc
    | sub h' hc _ _ => obtain ⟨_, rfl, _⟩ := ih h'; simp [hcut] at hc
  | baseMiss _ hcut ih =>
    intro g' s'' tr' h'
    cases h' with
    | baseCut h' hc => obtain ⟨_, rfl, _⟩ := ih h'; simp [hcut] at hc
    | baseMiss h' _ => obtain ⟨_, _, rfl⟩ := ih h'; exact ⟨rfl, rfl, rfl⟩
    | subCut h' _ _ _ => exact absurd (ih h').1 (by simp)
    | sub h' _ _ _ => exact absurd (ih h').1 (by simp)
  | subCut _ hcut₁ _ hcut₂ iha ihb =>
    intro g' s'' tr' h'
    cases h' with
    | baseCut h' hc => obtain ⟨_, rfl, _⟩ := iha h'; simp [hcut₁] at hc
    | baseMiss h' _ => exact absurd (iha h').1 (by simp)
    | subCut ha' _ hb' _ =>
      obtain ⟨_, rfl, rfl⟩ := iha ha'
      obtain ⟨_, rfl, rfl⟩ := ihb hb'
      exact ⟨rfl, rfl, rfl⟩
    | sub _ _ hb' hc => obtain ⟨_, rfl, _⟩ := ihb hb'; simp [hcut₂] at hc
  | sub _ hcut₁ _ hcut₂ iha ihb =>
    intro g' s'' tr' h'
    cases h' with
    | baseCut h' hc => obtain ⟨_, rfl, _⟩ := iha h'; simp [hcut₁] at hc
    | baseMiss h' _ => exact absurd (iha h').1 (by simp)
    | subCut _ _ hb' hc => obtain ⟨_, rfl, _⟩ := ihb hb'; simp [hcut₂] at hc
    | sub ha' _ hb' _ =>
      obtain ⟨_, rfl, rfl⟩ := iha ha'
      obtain ⟨rfl, rfl, rfl⟩ := ihb hb'
      exact ⟨rfl, rfl, rfl⟩

/-- The nodes about which a call may ask for a hint before it visits anything, with the hops to
    them. -/
def asked : Call ν μ → List (ν × Nat)
  | .node _ => []
  | .tree p => p.asks
  | .anyOf ps => Plan.asksIn ps
  | .allOf ps => Plan.asksIn ps

/-- Another search that agrees with `S` at node `n` on the rule, and on which of the hints it may
    ask for from depth `d` answer. -/
def AgreesFrom (S S' : Search ν μ) (n : ν) (d : Nat) : Prop :=
  S'.rule n = S.rule n ∧
    ∀ e ∈ (S.rule n).asks, (S'.Hinted e.1 (d + e.2) ↔ S.Hinted e.1 (d + e.2))

/-- Another search that agrees with `S` at node `n` on the rule and the hints it may ask for. -/
def AgreesAt (S S' : Search ν μ) (n : ν) : Prop :=
  S'.rule n = S.rule n ∧ ∀ m ∈ (S.rule n).hinted, S'.hint m = S.hint m

theorem AgreesAt.agreesFrom {S' : Search ν μ} {n : ν} (hbound : S'.bound = S.bound)
    (h : AgreesAt S S' n) (d : Nat) : AgreesFrom S S' n d := by
  refine ⟨h.1, fun e he => ?_⟩
  have hmem : e.1 ∈ (S.rule n).hinted := by
    rw [← Plan.asks_fst]
    exact List.mem_map_of_mem he
  unfold Hinted
  rw [h.2 e.1 hmem, hbound]

/-- A search reads the rule and the hints only at the nodes it visits: another search that agrees
    there makes the same run. -/
theorem Runs.congr {S' : Search ν μ} (hbound : S'.bound = S.bound) (htarget : S'.target = S.target)
    {d : Nat} {c : Call ν μ} {s s' : Scope ν} {g : Bool} {tr : List (Event ν)}
    (h : Runs S d c s g s' tr) :
    (∀ e ∈ asked c, (S'.Hinted e.1 (d + e.2) ↔ S.Hinted e.1 (d + e.2))) →
      (∀ n k, Event.visit n k ∈ tr → AgreesFrom S S' n k) → Runs S' d c s g s' tr := by
  induction h with
  | tooDeep hd => intro _ _; exact .tooDeep (by omega)
  | seen hd hn => intro _ _; exact .seen (by omega) hn
  | @visit d n s g s' tr hd hn _ ih =>
    intro _ hr
    obtain ⟨hrule, hhint⟩ := hr n d (List.mem_cons_self ..)
    refine .visit (by omega) hn ?_
    rw [hrule]
    exact ih hhint fun m k hm => hr m k (List.mem_cons_of_mem _ hm)
  | leafHit hm => intro _ _; exact .leafHit (htarget ▸ hm)
  | leafMiss hm => intro _ _; exact .leafMiss (htarget ▸ hm)
  | @hinted d n w s hh =>
    intro hc _
    exact .hinted ((hc (n, w) (by simp [asked, Plan.asks])).mpr hh)
  | @goto d n w h s g s' tr hh _ ih =>
    intro hc hr
    refine .goto (fun hw hh' => hh hw ?_) (ih (fun m hm => absurd hm List.not_mem_nil) hr)
    exact (hc (n, w) (by simp [asked, Plan.asks, hw])).mp hh'
  | any _ ih => intro hc hr; exact .any (ih hc hr)
  | all _ ih => intro hc hr; exact .all (ih hc hr)
  | anyNil => intro _ _; exact .anyNil
  | anyHit _ ih =>
    intro hc hr
    exact .anyHit (ih (fun m hm => hc m (List.mem_append_left _ hm)) hr)
  | anyMiss _ _ ih₁ ih₂ =>
    intro hc hr
    exact .anyMiss
      (ih₁ (fun m hm => hc m (List.mem_append_left _ hm))
        fun m k hm => hr m k (List.mem_append_left _ hm))
      (ih₂ (fun m hm => hc m (List.mem_append_right _ hm))
        fun m k hm => hr m k (List.mem_append_right _ hm))
  | allNil => intro _ _; exact .allNil
  | allCut _ hcut ih =>
    intro hc hr
    exact .allCut (ih (fun m hm => hc m (List.mem_append_left _ hm))
      fun m k hm => hr m k (by simp [hm])) hcut
  | allMiss _ hcut ih =>
    intro hc hr
    exact .allMiss (ih (fun m hm => hc m (List.mem_append_left _ hm)) hr) hcut
  | allHit _ hcut _ ih₁ ih₂ =>
    intro hc hr
    exact .allHit
      (ih₁ (fun m hm => hc m (List.mem_append_left _ hm))
        fun m k hm => hr m k (List.mem_append_left _ hm)) hcut
      (ih₂ (fun m hm => hc m (List.mem_append_right _ hm))
        fun m k hm => hr m k (List.mem_append_right _ hm))
  | baseCut _ hcut ih =>
    intro hc hr
    exact .baseCut (ih (fun m hm => hc m (List.mem_append_left _ hm))
      fun m k hm => hr m k (by simp [hm])) hcut
  | baseMiss _ hcut ih =>
    intro hc hr
    exact .baseMiss (ih (fun m hm => hc m (List.mem_append_left _ hm)) hr) hcut
  | subCut _ hcut₁ _ hcut₂ ih₁ ih₂ =>
    intro hc hr
    exact .subCut
      (ih₁ (fun m hm => hc m (List.mem_append_left _ hm)) fun m k hm => hr m k (by simp [hm]))
      hcut₁
      (ih₂ (fun m hm => hc m (List.mem_append_right _ hm)) fun m k hm => hr m k (by simp [hm]))
      hcut₂
  | sub _ hcut₁ _ hcut₂ ih₁ ih₂ =>
    intro hc hr
    exact .sub
      (ih₁ (fun m hm => hc m (List.mem_append_left _ hm)) fun m k hm => hr m k (by simp [hm]))
      hcut₁
      (ih₂ (fun m hm => hc m (List.mem_append_right _ hm)) fun m k hm => hr m k (by simp [hm]))
      hcut₂

/-- The nodes a call may go to before it visits anything. -/
def heads : Call ν μ → List ν
  | .node n => [n]
  | .tree p => p.targets
  | .anyOf ps => Plan.targetsIn ps
  | .allOf ps => Plan.targetsIn ps

/-- A search stays among nodes that are closed under reference. -/
theorem Runs.visits_closed {φ : ν → Prop} (hφ : ∀ n, φ n → ∀ m ∈ (S.rule n).targets, φ m)
    {d : Nat} {c : Call ν μ} {s s' : Scope ν} {g : Bool} {tr : List (Event ν)}
    (h : Runs S d c s g s' tr) :
    (∀ n ∈ heads c, φ n) → ∀ n k, Event.visit n k ∈ tr → φ n := by
  have left : ∀ {p : Plan ν μ} {ps : List (Plan ν μ)},
      (∀ n ∈ Plan.targetsIn (p :: ps), φ n) → ∀ n ∈ p.targets, φ n :=
    fun hc n hn => hc n (List.mem_append_left _ hn)
  have right : ∀ {p : Plan ν μ} {ps : List (Plan ν μ)},
      (∀ n ∈ Plan.targetsIn (p :: ps), φ n) → ∀ n ∈ Plan.targetsIn ps, φ n :=
    fun hc n hn => hc n (List.mem_append_right _ hn)
  induction h with
  | tooDeep _ => intro _ n k hm; simp at hm
  | seen _ _ => intro _ n k hm; exact absurd hm List.not_mem_nil
  | @visit d m s g s' tr _ _ _ ih =>
    intro hc n k hm
    have hφm : φ m := hc m (List.mem_singleton.mpr rfl)
    rcases List.mem_cons.mp hm with heq | hm
    · obtain ⟨rfl, _⟩ := Event.visit.inj heq
      exact hφm
    · exact ih (hφ m hφm) n k hm
  | leafHit _ => intro _ n k hm; exact absurd hm List.not_mem_nil
  | leafMiss _ => intro _ n k hm; exact absurd hm List.not_mem_nil
  | hinted _ => intro _ n k hm; exact absurd hm List.not_mem_nil
  | goto _ _ ih => exact ih
  | any _ ih => exact ih
  | all _ ih => exact ih
  | anyNil => intro _ n k hm; exact absurd hm List.not_mem_nil
  | anyHit _ ih => intro hc; exact ih (left hc)
  | anyMiss _ _ ih₁ ih₂ =>
    intro hc n k hm
    rcases List.mem_append.mp hm with hm | hm
    · exact ih₁ (left hc) n k hm
    · exact ih₂ (right hc) n k hm
  | allNil => intro _ n k hm; exact absurd hm List.not_mem_nil
  | allCut _ _ ih =>
    intro hc n k hm
    exact ih (left hc) n k (by simpa using hm)
  | allMiss _ _ ih => intro hc; exact ih (left hc)
  | allHit _ _ _ ih₁ ih₂ =>
    intro hc n k hm
    rcases List.mem_append.mp hm with hm | hm
    · exact ih₁ (left hc) n k hm
    · exact ih₂ (right hc) n k hm
  | baseCut _ _ ih =>
    intro hc n k hm
    exact ih (fun m hm => hc m (List.mem_append_left _ hm)) n k (by simpa using hm)
  | baseMiss _ _ ih => intro hc; exact ih fun m hm => hc m (List.mem_append_left _ hm)
  | subCut _ _ _ _ ih₁ ih₂ =>
    intro hc n k hm
    rw [List.append_assoc] at hm
    rcases List.mem_append.mp hm with hm | hm
    · exact ih₁ (fun m hm => hc m (List.mem_append_left _ hm)) n k hm
    · exact ih₂ (fun m hm => hc m (List.mem_append_right _ hm)) n k (by simpa using hm)
  | sub _ _ _ _ ih₁ ih₂ =>
    intro hc n k hm
    rcases List.mem_append.mp hm with hm | hm
    · exact ih₁ (fun m hm => hc m (List.mem_append_left _ hm)) n k hm
    · exact ih₂ (fun m hm => hc m (List.mem_append_right _ hm)) n k hm

/-! ## Several roots -/

/-- The search from each root in turn, up to the first grant: the visited nodes start afresh at
    each root, the cut flag is kept. -/
inductive Checks (S : Search ν μ) : List ν → Bool → Bool → Bool → List (Event ν) → Prop where
  | none {cut} : Checks S [] cut false cut []
  | grant {n ns cut s' tr} (h : Runs S 0 (.node n) ⟨[], cut⟩ true s' tr) :
      Checks S (n :: ns) cut true s'.cut tr
  | next {n ns cut s' tr g cut' tr'} (h : Runs S 0 (.node n) ⟨[], cut⟩ false s' tr)
      (hs : Checks S ns s'.cut g cut' tr') : Checks S (n :: ns) cut g cut' (tr ++ tr')

theorem Checks.unique {ns : List ν} {cut g cut' : Bool} {tr : List (Event ν)}
    (h : Checks S ns cut g cut' tr) : ∀ {g' cut'' : Bool} {tr' : List (Event ν)},
      Checks S ns cut g' cut'' tr' → g = g' ∧ cut' = cut'' ∧ tr = tr' := by
  induction h with
  | none => intro g' cut'' tr' h'; cases h'; exact ⟨rfl, rfl, rfl⟩
  | grant h =>
    intro g' cut'' tr' h'
    cases h' with
    | grant h' => obtain ⟨_, rfl, rfl⟩ := h.unique h'; exact ⟨rfl, rfl, rfl⟩
    | next h' _ => exact absurd (h.unique h').1 (by simp)
  | next h _ ih =>
    intro g' cut'' tr' h'
    cases h' with
    | grant h' => exact absurd (h.unique h').1 (by simp)
    | next h' hs' =>
      obtain ⟨_, rfl, rfl⟩ := h.unique h'
      obtain ⟨rfl, rfl, rfl⟩ := ih hs'
      exact ⟨rfl, rfl, rfl⟩

theorem Checks.congr {S' : Search ν μ} (hbound : S'.bound = S.bound)
    (htarget : S'.target = S.target) {ns : List ν} {cut g cut' : Bool} {tr : List (Event ν)}
    (h : Checks S ns cut g cut' tr) :
    (∀ n k, Event.visit n k ∈ tr → AgreesFrom S S' n k) → Checks S' ns cut g cut' tr := by
  have none_asked : ∀ n : ν, ∀ e ∈ asked (Call.node n : Call ν μ),
      (S'.Hinted e.1 (0 + e.2) ↔ S.Hinted e.1 (0 + e.2)) :=
    fun _ e he => absurd he List.not_mem_nil
  induction h with
  | none => intro _; exact .none
  | grant h => intro hr; exact .grant (h.congr hbound htarget (none_asked _) hr)
  | next h _ ih =>
    intro hr
    exact .next
      (h.congr hbound htarget (none_asked _) fun m k hm => hr m k (List.mem_append_left _ hm))
      (ih fun m k hm => hr m k (List.mem_append_right _ hm))

theorem Checks.uncut {ns : List ν} {cut g cut' : Bool} {tr : List (Event ν)}
    (h : Checks S ns cut g cut' tr) : cut' = false → cut = false := by
  induction h with
  | none => exact id
  | grant h => exact h.uncut
  | next h _ ih => exact fun hc => h.uncut (ih hc)

theorem Checks.visits_closed {φ : ν → Prop} (hφ : ∀ n, φ n → ∀ m ∈ (S.rule n).targets, φ m)
    {ns : List ν} {cut g cut' : Bool} {tr : List (Event ν)} (h : Checks S ns cut g cut' tr) :
    (∀ n ∈ ns, φ n) → ∀ n k, Event.visit n k ∈ tr → φ n := by
  have root : ∀ {n : ν} {ns : List ν}, (∀ m ∈ n :: ns, φ m) →
      ∀ m ∈ heads (Call.node n : Call ν μ), φ m := fun hns m hm =>
    hns m (by obtain rfl := List.mem_singleton.mp hm; exact List.mem_cons_self ..)
  induction h with
  | none => intro _ n k hm; exact absurd hm List.not_mem_nil
  | grant h => intro hns; exact h.visits_closed hφ (root hns)
  | next h _ ih =>
    intro hns n k hm
    rcases List.mem_append.mp hm with hm | hm
    · exact h.visits_closed hφ (root hns) n k hm
    · exact ih (fun m hm => hns m (List.mem_cons_of_mem _ hm)) n k hm

/-- Exactness for several roots. -/
theorem Checks.exact {P Q : Set ν}
    (hP : Plan.Least S.rule S.target P (Plan.Holds S.target Q P))
    (hQ : Plan.Least S.rule S.target Q (Plan.Holds S.target P Q))
    (hint : ∀ m k, S.hint m = some k → m ∈ P) {ns : List ν} {cut g cut' : Bool}
    {tr : List (Event ν)} (h : Checks S ns cut g cut' tr) :
    (g = true → ∃ n ∈ ns, n ∈ P) ∧ (g = false → cut' = false → ∀ n ∈ ns, n ∉ Q) := by
  induction h with
  | none => simp
  | grant h => exact ⟨fun _ => ⟨_, List.mem_cons_self .., (h.exact hP hQ hint).1.1 rfl⟩, by simp⟩
  | @next n ns cut s' tr g cut' tr' h hs ih =>
    refine ⟨fun hg => ?_, fun hg hc m hm => ?_⟩
    · obtain ⟨m, hm, hmP⟩ := ih.1 hg
      exact ⟨m, List.mem_cons_of_mem _ hm, hmP⟩
    · rcases List.mem_cons.mp hm with rfl | hm
      · have hcut := hs.uncut hc
        obtain ⟨hans, hcl⟩ := h.exact hP hQ hint
        exact unfounded hQ (fun k hk => hcl rfl hcut k hk List.not_mem_nil) m (hans.2 rfl hcut)
      · exact ih.2 hg hc m hm

/-- **Searches over the same readings do not contradict each other.**  When one grants and another
    refuses, with hints that are sound or with none, the refusal was cut. -/
theorem Checks.consistent {S S' : Search ν μ} (htarget : S'.target = S.target)
    (hrule : ∀ n X Y, Plan.Holds S.target X Y (S.rule n) ↔ Plan.Holds S.target X Y (S'.rule n))
    (hint : ∀ n k, S.hint n = some k → n ∈ Plan.lower S.rule S.target)
    (hint' : ∀ n k, S'.hint n = some k → n ∈ Plan.lower S.rule S.target)
    {ns : List ν} {cut cut₁ cut' cut₂ : Bool} {tr tr' : List (Event ν)}
    (h : Checks S ns cut true cut₁ tr) (h' : Checks S' ns cut' false cut₂ tr') : cut₂ = true := by
  obtain ⟨hlower, hupper⟩ := Plan.bracket_congr hrule
  have hleast := Plan.least_lower S'.rule S'.target
  have hleast' := Plan.least_upper S'.rule S'.target
  rw [htarget, ← hlower, ← hupper] at hleast hleast'
  obtain ⟨n, hn, hmem⟩ := (h.exact (Plan.least_lower S.rule S.target)
    (Plan.least_upper S.rule S.target) hint).1 rfl
  have hrefuse : cut₂ = false → ∀ n ∈ ns, n ∉ Plan.upper S.rule S.target := by
    rw [← htarget] at hleast hleast' hint'
    have hexact := h'.exact hleast hleast' hint'
    rw [htarget] at hexact
    exact hexact.2 rfl
  by_contra hcut
  exact hrefuse (by simpa using hcut) n hn (Plan.lower_subset_upper S.rule S.target hmem)

end Search
