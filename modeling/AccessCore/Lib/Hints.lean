/-
  A search with hints and the same search without.

  A sound hint says of a node what a search could find.  The search with hints ends earlier, and
  what it skips may have been cut: then it grants where the search without hints gives up.  As long
  as the search without hints is not cut there is no difference (`AddsHints.checks`).

  The two do not visit the same nodes.  They go in step until a hint answers; from there on the one
  with hints has its grant, and the other will find one, since an uncut refusal would contradict
  the hint.
-/
import AccessCore.Lib.Search

namespace Search

variable {ν μ : Type} {S S' : Search ν μ} {d : Nat} {c : Call ν μ} {s s' : Scope ν} {g : Bool}
  {tr : List (Event ν)}

/-! ## Cuts -/

/-- No node was met below the bound. -/
def Shallow (tr : List (Event ν)) : Prop := ∀ n k, Event.tooDeep n k ∉ tr

theorem Shallow.left {tr' : List (Event ν)} (h : Shallow (tr ++ tr')) : Shallow tr :=
  fun n k hmem => h n k (List.mem_append_left _ hmem)

theorem Shallow.right {tr' : List (Event ν)} (h : Shallow (tr ++ tr')) : Shallow tr' :=
  fun n k hmem => h n k (List.mem_append_right _ hmem)

/-- Only a node below the bound cuts a search. -/
theorem Runs.uncut_of_shallow (h : Runs S d c s g s' tr) (hs : s.cut = false)
    (hshallow : Shallow tr) : s'.cut = false := by
  induction h with
  | tooDeep _ => exact absurd List.mem_cons_self (hshallow _ _)
  | visit _ _ _ ih => exact ih hs fun n k hmem => hshallow n k (List.mem_cons_of_mem _ hmem)
  | goto _ _ ih => exact ih hs hshallow
  | any _ ih => exact ih hs hshallow
  | all _ ih => exact ih hs hshallow
  | anyHit _ ih => exact ih hs hshallow
  | anyMiss _ _ ih₁ ih₂ => exact ih₂ (ih₁ hs hshallow.left) hshallow.right
  | allHit _ _ _ _ ih₂ => exact ih₂ hs hshallow.right
  | allCut _ hcut ih | baseCut _ hcut ih =>
    -- an operand starts uncut, so it was not cut either
    rw [ih rfl hshallow.left] at hcut
    cases hcut
  | subCut _ _ _ hcut _ ihb =>
    rw [ihb rfl hshallow.left.right] at hcut
    cases hcut
  | seen _ _ | leafHit _ | leafMiss _ | hinted _ | anyNil | allNil | allMiss _ _ _ | baseMiss _ _ _
  | sub _ _ _ _ _ _ => exact hs

/-- A search that was not cut met no node below the bound. -/
theorem Runs.shallow_of_uncut (h : Runs S d c s g s' tr) (huncut : s'.cut = false) :
    Shallow tr := by
  have append : ∀ {tr₁ tr₂ : List (Event ν)}, Shallow tr₁ → Shallow tr₂ → Shallow (tr₁ ++ tr₂) := by
    intro tr₁ tr₂ h₁ h₂ n k hmem
    rcases List.mem_append.mp hmem with hmem | hmem
    · exact h₁ n k hmem
    · exact h₂ n k hmem
  induction h with
  | tooDeep _ => cases huncut
  | visit _ _ _ ih =>
    intro n k hmem
    rcases List.mem_cons.mp hmem with heq | hmem
    · cases heq
    · exact ih huncut n k hmem
  | goto _ _ ih => exact ih huncut
  | any _ ih => exact ih huncut
  | all _ ih => exact ih huncut
  | anyHit _ ih => exact ih huncut
  | anyMiss _ hps ih₁ ih₂ => exact append (ih₁ (hps.uncut huncut)) (ih₂ huncut)
  | allHit _ hcut _ ih₁ ih₂ => exact append (ih₁ hcut) (ih₂ huncut)
  | allMiss _ hcut ih => exact ih hcut
  | baseMiss _ hcut ih => exact ih hcut
  | sub _ hcut₁ _ hcut₂ iha ihb => exact append (iha hcut₁) (ihb hcut₂)
  | allCut _ _ _ | baseCut _ _ _ | subCut _ _ _ _ _ _ => cases huncut
  | seen _ _ | leafHit _ | leafMiss _ | hinted _ | anyNil | allNil =>
    exact fun n k hmem => absurd hmem List.not_mem_nil

/-! ## With hints and without -/

/-- `S'` is `S`, which has no hints, with hints that are sound. -/
structure AddsHints (S S' : Search ν μ) : Prop where
  rule : S'.rule = S.rule
  bound : S'.bound = S.bound
  target : S'.target = S.target
  none : ∀ n, S.hint n = none
  sound : ∀ n k, S'.hint n = some k → n ∈ Plan.lower S.rule S.target

namespace AddsHints

/-- An operand that is refused uncut without hints is not granted with them. -/
theorem refused (hS : AddsHints S S') {p : Plan ν μ} {s₁ s₂ : Scope ν} {tr₁ tr₂ : List (Event ν)}
    (h : Runs S d (.tree p) .fresh false s₁ tr₁) (huncut : s₁.cut = false) :
    ¬ Runs S' d (.tree p) .fresh true s₂ tr₂ := by
  intro h'
  have hlower := Plan.least_lower S.rule S.target
  have hupper := Plan.least_upper S.rule S.target
  have hnone : ∀ n k, S.hint n = some k → n ∈ Plan.lower S.rule S.target := by
    intro n k hk
    rw [hS.none n] at hk
    cases hk
  obtain ⟨hanswer, hclosing⟩ := h.exact hlower hupper hnone
  have hout : ¬ Plan.Holds S.target (Plan.upper S.rule S.target) (Plan.lower S.rule S.target) p :=
    refuted hupper (fun m hm => hclosing rfl huncut m hm List.not_mem_nil) (hanswer.2 rfl huncut)
  have hlower' : Plan.Least S'.rule S'.target (Plan.lower S.rule S.target)
      (Plan.Holds S'.target (Plan.upper S.rule S.target) (Plan.lower S.rule S.target)) := by
    rw [hS.rule, hS.target]
    exact hlower
  have hupper' : Plan.Least S'.rule S'.target (Plan.upper S.rule S.target)
      (Plan.Holds S'.target (Plan.lower S.rule S.target) (Plan.upper S.rule S.target)) := by
    rw [hS.rule, hS.target]
    exact hupper
  have hin := (h'.exact hlower' hupper' hS.sound).1.1 rfl
  rw [hS.target] at hin
  have hsubset := Plan.lower_subset_upper S.rule S.target
  exact hout (Plan.Holds.mono p hsubset hsubset hin)

/-- **In step until a hint answers.**  The search with hints ends as the one without, or with a
grant.  The induction is on the run without hints; operands are where it could go wrong, and there
an answer that differs would contradict `refused`. -/
theorem runs (hS : AddsHints S S') (h : Runs S d c s g s' tr) (huncut : s'.cut = false) :
    (∃ tr', Runs S' d c s g s' tr') ∨
      ∃ s'' tr', Runs S' d c s true s'' tr' ∧ s''.cut = false := by
  have hbound := hS.bound
  have htarget := hS.target
  induction h with
  | tooDeep _ => cases huncut
  | seen hd hn => exact Or.inl ⟨_, .seen (by omega) hn⟩
  | @visit d n s g s' tr hd hn _ ih =>
    have hd' : d ≤ S'.bound := by omega
    rw [← hS.rule] at ih
    rcases ih huncut with ⟨tr', hrun⟩ | ⟨s'', tr', hrun, hcut⟩
    · exact Or.inl ⟨_, .visit hd' hn hrun⟩
    · exact Or.inr ⟨s'', _, .visit hd' hn hrun, hcut⟩
  | leafHit hm => exact Or.inl ⟨_, .leafHit (htarget ▸ hm)⟩
  | leafMiss hm => exact Or.inl ⟨_, .leafMiss (htarget ▸ hm)⟩
  | @hinted d n w s hh =>
    obtain ⟨k, hk, -⟩ := hh
    rw [hS.none n] at hk
    cases hk
  | @goto d n w hinted s g s' tr _ hrun ih =>
    by_cases hh : hinted = true ∧ S'.Hinted n (d + w)
    · -- the hint answers; what it answers for may go on for long without hints
      obtain ⟨rfl, hh⟩ := hh
      exact Or.inr ⟨s, _, .hinted hh, hrun.uncut huncut⟩
    · have hno : hinted = true → ¬ S'.Hinted n (d + w) := fun hw hh' => hh ⟨hw, hh'⟩
      rcases ih huncut with ⟨tr', hrun'⟩ | ⟨s'', tr', hrun', hcut⟩
      · exact Or.inl ⟨_, .goto hno hrun'⟩
      · exact Or.inr ⟨s'', _, .goto hno hrun', hcut⟩
  | any _ ih =>
    rcases ih huncut with ⟨tr', hrun⟩ | ⟨s'', tr', hrun, hcut⟩
    · exact Or.inl ⟨_, .any hrun⟩
    · exact Or.inr ⟨s'', _, .any hrun, hcut⟩
  | all _ ih =>
    rcases ih huncut with ⟨tr', hrun⟩ | ⟨s'', tr', hrun, hcut⟩
    · exact Or.inl ⟨_, .all hrun⟩
    · exact Or.inr ⟨s'', _, .all hrun, hcut⟩
  | anyNil => exact Or.inl ⟨_, .anyNil⟩
  | anyHit _ ih =>
    rcases ih huncut with ⟨tr', hrun⟩ | ⟨s'', tr', hrun, hcut⟩
    · exact Or.inl ⟨_, .anyHit hrun⟩
    · exact Or.inr ⟨s'', _, .anyHit hrun, hcut⟩
  | anyMiss _ hps ih₁ ih₂ =>
    rcases ih₁ (hps.uncut huncut) with ⟨tr₁, hrun₁⟩ | ⟨s'', tr₁, hrun₁, hcut⟩
    · rcases ih₂ huncut with ⟨tr₂, hrun₂⟩ | ⟨s'', tr₂, hrun₂, hcut⟩
      · exact Or.inl ⟨_, .anyMiss hrun₁ hrun₂⟩
      · exact Or.inr ⟨s'', _, .anyMiss hrun₁ hrun₂, hcut⟩
    · exact Or.inr ⟨s'', _, .anyHit hrun₁, hcut⟩
  | allNil => exact Or.inl ⟨_, .allNil⟩
  | allCut _ _ _ => cases huncut
  | allMiss hp hcut ih =>
    rcases ih hcut with ⟨tr', hrun⟩ | ⟨s'', tr', hrun, -⟩
    · exact Or.inl ⟨_, .allMiss hrun hcut⟩
    · exact absurd hrun (hS.refused hp hcut)
  | @allHit d p ps s s₁ g s₂ tr₁ tr₂ _ hcut _ ih₁ ih₂ =>
    have hfirst : ∃ s₁ tr₁, Runs S' d (.tree p) .fresh true s₁ tr₁ ∧ s₁.cut = false := by
      rcases ih₁ hcut with ⟨tr₁, hrun₁⟩ | hgrant
      · exact ⟨_, tr₁, hrun₁, hcut⟩
      · exact hgrant
    obtain ⟨s₁, tr₁, hrun₁, hcut₁⟩ := hfirst
    rcases ih₂ huncut with ⟨tr₂, hrun₂⟩ | ⟨s'', tr₂, hrun₂, hcut₂⟩
    · exact Or.inl ⟨_, .allHit hrun₁ hcut₁ hrun₂⟩
    · exact Or.inr ⟨s'', _, .allHit hrun₁ hcut₁ hrun₂, hcut₂⟩
  | baseCut _ _ _ => cases huncut
  | baseMiss ha hcut ih =>
    rcases ih hcut with ⟨tr', hrun⟩ | ⟨s'', tr', hrun, -⟩
    · exact Or.inl ⟨_, .baseMiss hrun hcut⟩
    · exact absurd hrun (hS.refused ha hcut)
  | subCut _ _ _ _ _ _ => cases huncut
  | @sub d a b s s₁ g s₂ tr₁ tr₂ _ hcut₁ hb hcut₂ iha ihb =>
    have hbase : ∃ s₁ tr₁, Runs S' d (.tree a) .fresh true s₁ tr₁ ∧ s₁.cut = false := by
      rcases iha hcut₁ with ⟨tr₁, hrun₁⟩ | hgrant
      · exact ⟨_, tr₁, hrun₁, hcut₁⟩
      · exact hgrant
    obtain ⟨s₁', tr₁', hrun₁, hcut₁'⟩ := hbase
    left
    rcases ihb hcut₂ with ⟨tr₂', hrun₂⟩ | ⟨s₂', tr₂', hrun₂, hcut₂'⟩
    · exact ⟨_, .sub hrun₁ hcut₁' hrun₂ hcut₂⟩
    · -- the subtracted operand is granted by a hint, so it is granted without
      cases g with
      | true => exact ⟨_, .sub hrun₁ hcut₁' hrun₂ hcut₂'⟩
      | false => exact absurd hrun₂ (hS.refused hb hcut₂)

/-- **Several roots.**  Without a node below the bound, the two searches have the same answer. -/
theorem checks (hS : AddsHints S S') {ns : List ν} {g g' cut' cut'' : Bool}
    {tr tr' : List (Event ν)} (h : Checks S ns false g cut' tr) (hshallow : Shallow tr)
    (h' : Checks S' ns false g' cut'' tr') : g' = g := by
  generalize hcut : false = cut at h h'
  induction h generalizing g' cut'' tr' with
  | none =>
    cases h'
    rfl
  | grant h =>
    have huncut := h.uncut_of_shallow hcut.symm hshallow
    rcases hS.runs h huncut with ⟨tr₁, hrun⟩ | ⟨s'', tr₁, hrun, -⟩ <;>
    · cases h' with
      | grant _ => rfl
      | next h' _ => exact absurd (h'.unique hrun).1 (by simp)
  | @next n ns cut s' tr g cut' tr' h hs ih =>
    have huncut := h.uncut_of_shallow hcut.symm hshallow.left
    subst hcut
    rcases hS.runs h huncut with ⟨tr₁, hrun⟩ | ⟨s'', tr₁, hrun, -⟩
    · cases h' with
      | grant h' => exact absurd (h'.unique hrun).1 (by simp)
      | next h' hs' =>
        obtain ⟨-, rfl, -⟩ := h'.unique hrun
        exact ih hshallow.right huncut.symm hs'
    · -- a root is a tree of its own
      exact absurd (Runs.goto (w := 0) (h := false) (by simp) hrun)
        (hS.refused (.goto (w := 0) (h := false) (by simp) h) huncut)

end AddsHints

end Search
