/-
  Searches over plans without differences.

  Where nothing is subtracted, a grant needs no refusal.  So it is sound for any set of nodes that
  is closed under the rule and has the hinted nodes, however little the rule knows: what a rule
  leaves out can only cost grants (`Runs.granted`).  A collection over such plans enters no
  difference (`Gathers.entersNone`), so what it collects is sound in the same way.
-/
import AccessCore.Lib.Gather

namespace Plan

variable {ν μ : Type} {t : μ}

/-- No difference anywhere in the plan. -/
inductive Positive : Plan ν μ → Prop where
  | leaf (members) : Positive (.leaf members)
  | goto (node hops hinted) : Positive (.goto node hops hinted)
  | any {plans} (h : ∀ p ∈ plans, Positive p) : Positive (.any plans)
  | all {plans} (h : ∀ p ∈ plans, Positive p) : Positive (.all plans)

end Plan

namespace Search

variable {ν μ : Type} {S : Search ν μ} {X : Set ν}

/-- What a grant means for a call over plans without differences. -/
def Granted (S : Search ν μ) (X : Set ν) : Call ν μ → Prop
  | .node n => n ∈ X
  | .tree p => p.Positive → Plan.Holds S.target X X p
  | .anyOf ps => (∀ p ∈ ps, p.Positive) → ∃ p ∈ ps, Plan.Holds S.target X X p
  | .allOf ps => (∀ p ∈ ps, p.Positive) → ∀ p ∈ ps, Plan.Holds S.target X X p

/-- **A grant is sound** for every set that is closed under the rule.  The induction is on the
run. -/
theorem Runs.granted (hpositive : ∀ n, (S.rule n).Positive)
    (hclosed : ∀ n, Plan.Holds S.target X X (S.rule n) → n ∈ X)
    (hhint : ∀ n k, S.hint n = some k → n ∈ X) {d : Nat} {c : Call ν μ} {s s' : Scope ν} {g : Bool}
    {tr : List (Event ν)} (h : Runs S d c s g s' tr) : g = true → Granted S X c := by
  induction h with
  | tooDeep _ => intro hg; cases hg
  | seen _ _ => intro hg; cases hg
  | @visit d n s g s' tr _ _ _ ih => exact fun hg => hclosed n (ih hg (hpositive n))
  | leafHit hm => exact fun _ _ => Plan.holds_leaf.mpr hm
  | leafMiss _ => intro hg; cases hg
  | hinted hh =>
    obtain ⟨k, hk, -⟩ := hh
    exact fun _ _ => Plan.holds_goto.mpr (hhint _ k hk)
  | goto _ _ ih => exact fun hg _ => Plan.holds_goto.mpr (ih hg)
  | any _ ih =>
    intro hg hp
    cases hp with
    | any hps => exact Plan.holds_any.mpr (ih hg hps)
  | all _ ih =>
    intro hg hp
    cases hp with
    | all hps => exact Plan.holds_all.mpr (ih hg hps)
  | anyNil => intro hg; cases hg
  | anyHit _ ih => exact fun _ hps => ⟨_, List.mem_cons_self, ih rfl (hps _ List.mem_cons_self)⟩
  | anyMiss _ _ _ ih =>
    intro hg hps
    obtain ⟨p, hp, hholds⟩ := ih hg fun p hp => hps p (List.mem_cons_of_mem _ hp)
    exact ⟨p, List.mem_cons_of_mem _ hp, hholds⟩
  | allNil => exact fun _ _ p hp => absurd hp List.not_mem_nil
  | allCut _ _ _ => intro hg; cases hg
  | allMiss _ _ _ => intro hg; cases hg
  | allHit _ _ _ ih ihs =>
    intro hg hps p hp
    rcases List.mem_cons.mp hp with rfl | hp
    · exact ih rfl (hps _ List.mem_cons_self)
    · exact ihs hg (fun q hq => hps q (List.mem_cons_of_mem _ hq)) p hp
  | baseCut _ _ _ => intro hg; cases hg
  | baseMiss _ _ _ => intro hg; cases hg
  | subCut _ _ _ _ _ _ => intro hg; cases hg
  | sub _ _ _ _ _ _ => exact fun _ hp => by cases hp

/-- Soundness for several roots. -/
theorem Checks.granted (hpositive : ∀ n, (S.rule n).Positive)
    (hclosed : ∀ n, Plan.Holds S.target X X (S.rule n) → n ∈ X)
    (hhint : ∀ n k, S.hint n = some k → n ∈ X) {ns : List ν} {cut g cut' : Bool}
    {tr : List (Event ν)} (h : Checks S ns cut g cut' tr) : g = true → ∃ n ∈ ns, n ∈ X := by
  induction h with
  | none => intro hg; cases hg
  | grant hrun =>
    exact fun _ => ⟨_, List.mem_cons_self, hrun.granted hpositive hclosed hhint rfl⟩
  | next _ _ ih =>
    intro hg
    obtain ⟨n, hn, hmem⟩ := ih hg
    exact ⟨n, List.mem_cons_of_mem _ hn, hmem⟩

/-! ## Collecting -/

/-- The trees of the call have no difference. -/
def Positive : Call ν μ → Prop
  | .node _ => True
  | .tree p => p.Positive
  | .anyOf ps => ∀ p ∈ ps, p.Positive
  | .allOf ps => ∀ p ∈ ps, p.Positive

theorem Gathers.entersNone {rule : ν → Plan ν μ} {bound d : Nat} {c : Call ν μ} {V V' : List ν}
    {ms : Set μ} {ex : Bool} (hpositive : ∀ n, (rule n).Positive)
    (h : Gathers rule bound d c V ms V' ex) : Positive c → ex = false := by
  induction h with
  | tooDeep _ | seen _ _ | leaf | anyNil | allNil => exact fun _ => rfl
  | @visit d n V ms V' ex _ _ _ ih => exact fun _ => ih (hpositive n)
  | goto _ ih => exact fun _ => ih trivial
  | any _ ih =>
    intro hp
    cases hp with
    | any hps => exact ih hps
  | all _ ih =>
    intro hp
    cases hp with
    | all hps => exact ih hps
  | anyCons _ _ ihp ihps =>
    intro hps
    rw [ihp (hps _ List.mem_cons_self), ihps fun q hq => hps q (List.mem_cons_of_mem _ hq)]
    rfl
  | allCons _ _ ihp ihps =>
    intro hps
    rw [ihp (hps _ List.mem_cons_self), ihps fun q hq => hps q (List.mem_cons_of_mem _ hq)]
    rfl
  | diff _ _ _ _ => intro hp; cases hp

end Search
