/-
  Depth-first marking of a plan graph: the nodes one goes through before a search, to fetch what
  the search will read.

  `Marks S d c V V'` says that call `c`, made at depth `d` with `V` marked, ends with `V'` marked.
  Marking never stops early and marks a node once and for all, at the depth it first meets it; it
  passes by the references a hint answers.  A search may meet the same node again with more of its
  depth left, inside an operand with a fresh scope, so what it visits need not be marked: that is
  the whole difference between the two walks, and `Checks.of_marked` is the positive half of it.
-/
import AccessCore.Lib.Search

namespace Search

variable {ν μ : Type}

/-- Depth-first marking. -/
inductive Marks (S : Search ν μ) : Nat → Call ν μ → List ν → List ν → Prop where
  | skip {d n V} (h : n ∈ V ∨ S.bound < d) : Marks S d (.node n) V V
  | visit {d n V V'} (hd : d ≤ S.bound) (hn : n ∉ V)
      (h : Marks S d (.tree (S.rule n)) (n :: V) V') : Marks S d (.node n) V V'
  | leaf {d ms V} : Marks S d (.tree (.leaf ms)) V V
  | hinted {d n w V} (hh : S.Hinted n (d + w)) : Marks S d (.tree (.goto n w true)) V V
  | goto {d n w h V V'} (hh : h = true → ¬ S.Hinted n (d + w))
      (hm : Marks S (d + w) (.node n) V V') : Marks S d (.tree (.goto n w h)) V V'
  | any {d ps V V'} (h : Marks S d (.anyOf ps) V V') : Marks S d (.tree (.any ps)) V V'
  | all {d ps V V'} (h : Marks S d (.allOf ps) V V') : Marks S d (.tree (.all ps)) V V'
  | diff {d a b V V₁ V₂} (ha : Marks S d (.tree a) V V₁) (hb : Marks S d (.tree b) V₁ V₂) :
      Marks S d (.tree (.diff a b)) V V₂
  | anyNil {d V} : Marks S d (.anyOf []) V V
  | anyCons {d p ps V V₁ V₂} (hp : Marks S d (.tree p) V V₁) (hps : Marks S d (.anyOf ps) V₁ V₂) :
      Marks S d (.anyOf (p :: ps)) V V₂
  | allNil {d V} : Marks S d (.allOf []) V V
  | allCons {d p ps V V₁ V₂} (hp : Marks S d (.tree p) V V₁) (hps : Marks S d (.allOf ps) V₁ V₂) :
      Marks S d (.allOf (p :: ps)) V V₂

/-- Marking from each root in turn. -/
inductive MarksFrom (S : Search ν μ) : List ν → List ν → List ν → Prop where
  | nil {V} : MarksFrom S [] V V
  | cons {n ns V V₁ V₂} (h : Marks S 0 (.node n) V V₁) (hs : MarksFrom S ns V₁ V₂) :
      MarksFrom S (n :: ns) V V₂

variable {S : Search ν μ}

theorem Marks.subset {d : Nat} {c : Call ν μ} {V V' : List ν} (h : Marks S d c V V') : V ⊆ V' := by
  induction h with
  | skip _ | leaf | hinted _ | anyNil | allNil => exact List.Subset.refl _
  | visit _ _ _ ih => exact List.Subset.trans (List.subset_cons_self ..) ih
  | goto _ _ ih => exact ih
  | any _ ih => exact ih
  | all _ ih => exact ih
  | diff _ _ ih₁ ih₂ => exact List.Subset.trans ih₁ ih₂
  | anyCons _ _ ih₁ ih₂ => exact List.Subset.trans ih₁ ih₂
  | allCons _ _ ih₁ ih₂ => exact List.Subset.trans ih₁ ih₂

/-- Marking has one outcome. -/
theorem Marks.unique {d : Nat} {c : Call ν μ} {V V' : List ν} (h : Marks S d c V V') :
    ∀ {V'' : List ν}, Marks S d c V V'' → V' = V'' := by
  induction h with
  | skip h =>
    intro V'' h'
    cases h' with
    | skip _ => rfl
    | visit hd hn _ =>
      rcases h with h | h
      · exact absurd h hn
      · exact absurd hd (by omega)
  | visit hd hn _ ih =>
    intro V'' h'
    cases h' with
    | skip h =>
      rcases h with h | h
      · exact absurd h hn
      · exact absurd hd (by omega)
    | visit _ _ h' => exact ih h'
  | leaf => intro V'' h'; cases h'; rfl
  | hinted hh =>
    intro V'' h'
    cases h' with
    | hinted _ => rfl
    | goto hh' _ => exact absurd hh (hh' rfl)
  | goto hh _ ih =>
    intro V'' h'
    cases h' with
    | hinted hh' => exact absurd hh' (hh rfl)
    | goto _ h' => exact ih h'
  | any _ ih => intro V'' h'; cases h' with | any h' => exact ih h'
  | all _ ih => intro V'' h'; cases h' with | all h' => exact ih h'
  | diff _ _ ih₁ ih₂ =>
    intro V'' h'
    cases h' with
    | diff ha hb => obtain rfl := ih₁ ha; exact ih₂ hb
  | anyNil => intro V'' h'; cases h'; rfl
  | anyCons _ _ ih₁ ih₂ =>
    intro V'' h'
    cases h' with
    | anyCons hp hps => obtain rfl := ih₁ hp; exact ih₂ hps
  | allNil => intro V'' h'; cases h'; rfl
  | allCons _ _ ih₁ ih₂ =>
    intro V'' h'
    cases h' with
    | allCons hp hps => obtain rfl := ih₁ hp; exact ih₂ hps

theorem MarksFrom.unique {ns V V' : List ν} (h : MarksFrom S ns V V') :
    ∀ {V'' : List ν}, MarksFrom S ns V V'' → V' = V'' := by
  induction h with
  | nil => intro V'' h'; cases h'; rfl
  | cons h _ ih =>
    intro V'' h'
    cases h' with
    | cons h' hs' => obtain rfl := h.unique h'; exact ih hs'

/-- A search whose visits are all marked makes the same run over anything that agrees with it on
    the marked nodes, and gets the same answer there. -/
theorem Checks.of_marked {S' : Search ν μ} (hbound : S'.bound = S.bound)
    (htarget : S'.target = S.target) {ns V : List ν} {cut g cut' g' cut'' : Bool}
    {tr tr' : List (Event ν)} (h : Checks S ns cut g cut' tr)
    (hvisits : ∀ n k, Event.visit n k ∈ tr → n ∈ V) (hagree : ∀ n ∈ V, AgreesAt S S' n)
    (h' : Checks S' ns cut g' cut'' tr') : g' = g ∧ cut'' = cut' ∧ tr' = tr := by
  have hsame : Checks S' ns cut g cut' tr :=
    h.congr hbound htarget fun n k hn => (hagree n (hvisits n k hn)).agreesFrom hbound k
  exact h'.unique hsame

end Search
