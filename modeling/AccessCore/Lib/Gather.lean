/-
  The collecting search over a plan graph: every member a node can reach within the depth bound,
  with no early exit and no report of a cut.

  `Gathers rule bound d c V ms V' ex` says that call `c`, made at depth `d` with `V` visited,
  collects `ms` and leaves `V'` visited; `ex` says whether a difference was entered.

  Two facts matter.  A collection that entered no difference is sound for every closed set of
  nodes (`Gathers.sound`).  And the collecting search moves in lockstep with the looking one
  (`Runs.gathers`): up to the first grant both visit the same nodes in the same order, so a grant
  is a collected member, and a refusal is a missing one unless an operand was cut, which only the
  looking search notices.
-/
import AccessCore.Lib.Search

namespace Search

variable {ν μ : Type} {rule : ν → Plan ν μ} {bound : Nat}

/-- The collecting search. -/
inductive Gathers (rule : ν → Plan ν μ) (bound : Nat) :
    Nat → Call ν μ → List ν → Set μ → List ν → Bool → Prop where
  | tooDeep {d n V} (hd : bound < d) : Gathers rule bound d (.node n) V ∅ V false
  | seen {d n V} (hd : d ≤ bound) (hn : n ∈ V) : Gathers rule bound d (.node n) V ∅ V false
  | visit {d n V ms V' ex} (hd : d ≤ bound) (hn : n ∉ V)
      (h : Gathers rule bound d (.tree (rule n)) (n :: V) ms V' ex) :
      Gathers rule bound d (.node n) V ms V' ex
  | leaf {d ms V} : Gathers rule bound d (.tree (.leaf ms)) V {x | x ∈ ms} V false
  | goto {d n w hinted V ms V' ex} (h : Gathers rule bound (d + w) (.node n) V ms V' ex) :
      Gathers rule bound d (.tree (.goto n w hinted)) V ms V' ex
  | any {d ps V ms V' ex} (h : Gathers rule bound d (.anyOf ps) V ms V' ex) :
      Gathers rule bound d (.tree (.any ps)) V ms V' ex
  | all {d ps V ms V' ex} (h : Gathers rule bound d (.allOf ps) V ms V' ex) :
      Gathers rule bound d (.tree (.all ps)) V ms V' ex
  | anyNil {d V} : Gathers rule bound d (.anyOf []) V ∅ V false
  | anyCons {d p ps V ms V₁ ex₁ ns V₂ ex₂} (hp : Gathers rule bound d (.tree p) V ms V₁ ex₁)
      (hps : Gathers rule bound d (.anyOf ps) V₁ ns V₂ ex₂) :
      Gathers rule bound d (.anyOf (p :: ps)) V (ms ∪ ns) V₂ (ex₁ || ex₂)
  | allNil {d V} : Gathers rule bound d (.allOf []) V Set.univ V false
  | allCons {d p ps V ms V₁ ex₁ ns ex₂} (hp : Gathers rule bound d (.tree p) [] ms V₁ ex₁)
      (hps : Gathers rule bound d (.allOf ps) V ns V ex₂) :
      Gathers rule bound d (.allOf (p :: ps)) V (ms ∩ ns) V (ex₁ || ex₂)
  | diff {d a b V ms V₁ ex₁ ns V₂ ex₂} (ha : Gathers rule bound d (.tree a) [] ms V₁ ex₁)
      (hb : Gathers rule bound d (.tree b) [] ns V₂ ex₂) :
      Gathers rule bound d (.tree (.diff a b)) V (ms \ ns) V true

/-! ## Soundness without differences -/

/-- What it means for `t` to belong to a call, positive references read in `X`. -/
def Belongs (t : μ) (X : Set ν) (sub : Plan ν μ → Prop) : Call ν μ → Prop
  | .node n => n ∈ X
  | .tree p => Plan.Derives t X sub p
  | .anyOf ps => ∃ p ∈ ps, Plan.Derives t X sub p
  | .allOf ps => ∀ p ∈ ps, Plan.Derives t X sub p

/-- A member collected without entering a difference belongs to every closed set of nodes. -/
theorem Gathers.sound {t : μ} {X : Set ν} {sub : Plan ν μ → Prop}
    (hclosed : ∀ n, Plan.Derives t X sub (rule n) → n ∈ X) {d : Nat} {c : Call ν μ}
    {V V' : List ν} {ms : Set μ} {ex : Bool} (h : Gathers rule bound d c V ms V' ex) :
    ex = false → t ∈ ms → Belongs t X sub c := by
  induction h with
  | tooDeep _ => intro _ ht; exact absurd ht (Set.notMem_empty t)
  | seen _ _ => intro _ ht; exact absurd ht (Set.notMem_empty t)
  | visit _ _ _ ih => intro hex ht; exact hclosed _ (ih hex ht)
  | leaf => intro _ ht; simpa [Belongs] using ht
  | goto _ ih => intro hex ht; simpa [Belongs] using ih hex ht
  | any _ ih => intro hex ht; simpa [Belongs] using ih hex ht
  | all _ ih => intro hex ht; simpa [Belongs] using ih hex ht
  | anyNil => intro _ ht; exact absurd ht (Set.notMem_empty t)
  | anyCons _ _ ih₁ ih₂ =>
    intro hex ht
    obtain ⟨hex₁, hex₂⟩ := Bool.or_eq_false_iff.mp hex
    rcases ht with ht | ht
    · exact ⟨_, List.mem_cons_self .., ih₁ hex₁ ht⟩
    · obtain ⟨p, hp, hd⟩ := ih₂ hex₂ ht
      exact ⟨p, List.mem_cons_of_mem _ hp, hd⟩
  | allNil => intro _ _ p hp; exact absurd hp List.not_mem_nil
  | allCons _ _ ih₁ ih₂ =>
    intro hex ht p hp
    obtain ⟨hex₁, hex₂⟩ := Bool.or_eq_false_iff.mp hex
    rcases List.mem_cons.mp hp with rfl | hp
    · exact ih₁ hex₁ ht.1
    · exact ih₂ hex₂ ht.2 p hp
  | diff _ _ _ _ => intro hex; exact absurd hex (by simp)

/-! ## Where members come from -/

mutual
/-- Every member a tree can list outright satisfies `φ`, and no `all` is empty. -/
def Within (φ : μ → Prop) : Plan ν μ → Prop
  | .leaf ms => ∀ m ∈ ms, φ m
  | .goto _ _ _ => True
  | .any ps => WithinEvery φ ps
  | .all ps => ps ≠ [] ∧ WithinEvery φ ps
  | .diff a b => Within φ a ∧ Within φ b
/-- Every tree of the list is within `φ`. -/
def WithinEvery (φ : μ → Prop) : List (Plan ν μ) → Prop
  | [] => True
  | p :: ps => Within φ p ∧ WithinEvery φ ps
end

theorem withinEvery_iff {φ : μ → Prop} {ps : List (Plan ν μ)} :
    WithinEvery φ ps ↔ ∀ p ∈ ps, Within φ p := by
  induction ps with
  | nil => simp [WithinEvery]
  | cons p ps ih => simp [WithinEvery, ih]

/-- The trees of a call are within `φ`. -/
def CallWithin (φ : μ → Prop) : Call ν μ → Prop
  | .node _ => True
  | .tree p => Within φ p
  | .anyOf ps => ∀ p ∈ ps, Within φ p
  | .allOf ps => ps ≠ [] ∧ ∀ p ∈ ps, Within φ p

/-- Collected members come from the leaves. -/
theorem Gathers.within {φ : μ → Prop} (hrule : ∀ n, Within φ (rule n)) {d : Nat} {c : Call ν μ}
    {V V' : List ν} {ms : Set μ} {ex : Bool} (h : Gathers rule bound d c V ms V' ex) :
    CallWithin φ c → ∀ m ∈ ms, φ m := by
  induction h with
  | tooDeep _ => intro _ m hm; exact absurd hm (Set.notMem_empty m)
  | seen _ _ => intro _ m hm; exact absurd hm (Set.notMem_empty m)
  | @visit d n _ _ _ _ _ _ _ ih => intro _; exact ih (hrule n)
  | leaf => intro hc m hm; exact hc m hm
  | goto _ ih => intro _; exact ih trivial
  | any _ ih => intro hc; exact ih (withinEvery_iff.mp hc)
  | all _ ih => intro hc; exact ih ⟨hc.1, withinEvery_iff.mp hc.2⟩
  | anyNil => intro _ m hm; exact absurd hm (Set.notMem_empty m)
  | anyCons _ _ ih₁ ih₂ =>
    intro hc m hm
    rcases hm with hm | hm
    · exact ih₁ (hc _ (List.mem_cons_self ..)) m hm
    · exact ih₂ (fun p hp => hc p (List.mem_cons_of_mem _ hp)) m hm
  | allNil => intro hc; exact absurd rfl hc.1
  | allCons _ _ ih₁ _ => intro hc m hm; exact ih₁ (hc.2 _ (List.mem_cons_self ..)) m hm.1
  | diff _ _ iha _ => intro hc m hm; exact iha hc.1 m hm.1

/-! ## Lockstep with the looking search -/

variable {S : Search ν μ}

/-- An uncut scope has no cut operand behind it. -/
theorem Runs.no_cutOperand {d : Nat} {c : Call ν μ} {s s' : Scope ν} {g : Bool}
    {tr : List (Event ν)} (h : Runs S d c s g s' tr) :
    s'.cut = false → Event.cutOperand ∉ tr := by
  induction h with
  | tooDeep _ => intro hc; exact absurd hc (by simp)
  | seen _ _ | leafHit _ | leafMiss _ | hinted _ | anyNil | allNil => intro _; simp
  | visit _ _ _ ih => intro hc; simpa using ih hc
  | goto _ _ ih => exact ih
  | any _ ih => exact ih
  | all _ ih => exact ih
  | anyHit _ ih => exact ih
  | anyMiss _ hps ih₁ ih₂ =>
    intro hc
    simpa using ⟨ih₁ (hps.uncut hc), ih₂ hc⟩
  | allCut _ _ _ => intro hc; exact absurd hc (by simp)
  | allMiss _ hcut ih => intro _; exact ih hcut
  | allHit _ hcut _ ih₁ ih₂ => intro hc; simpa using ⟨ih₁ hcut, ih₂ hc⟩
  | baseCut _ _ _ => intro hc; exact absurd hc (by simp)
  | baseMiss _ hcut ih => intro _; exact ih hcut
  | subCut _ _ _ _ _ _ => intro hc; exact absurd hc (by simp)
  | sub _ hcut₁ _ hcut₂ ih₁ ih₂ => intro _; simpa using ⟨ih₁ hcut₁, ih₂ hcut₂⟩

/-- **Lockstep.**  Without hints, a grant is a collected member; after a refusal both searches
    have visited the same nodes, and the member is missing unless an operand was cut. -/
theorem Runs.gathers (hnone : ∀ n, S.hint n = none) {d : Nat} {c : Call ν μ} {s s' : Scope ν}
    {g : Bool} {tr : List (Event ν)} (h : Runs S d c s g s' tr) :
    ∀ {ms : Set μ} {V' : List ν} {ex : Bool}, Gathers S.rule S.bound d c s.visited ms V' ex →
      (g = true → S.target ∈ ms) ∧
      (g = false → V' = s'.visited ∧ (Event.cutOperand ∉ tr → S.target ∉ ms)) := by
  have hnot : ∀ n d, ¬ S.Hinted n d := by
    rintro n d ⟨k, hk, _⟩
    simp [hnone n] at hk
  induction h with
  | tooDeep hd =>
    intro ms V' ex hg
    cases hg with
    | tooDeep _ => exact ⟨by simp, fun _ => ⟨rfl, fun _ => Set.notMem_empty _⟩⟩
    | seen hd' _ => exact absurd hd' (by omega)
    | visit hd' _ _ => exact absurd hd' (by omega)
  | seen hd hn =>
    intro ms V' ex hg
    cases hg with
    | tooDeep hd' => exact absurd hd (by omega)
    | seen _ _ => exact ⟨by simp, fun _ => ⟨rfl, fun _ => Set.notMem_empty _⟩⟩
    | visit _ hn' _ => exact absurd hn hn'
  | visit hd hn _ ih =>
    intro ms V' ex hg
    cases hg with
    | tooDeep hd' => exact absurd hd (by omega)
    | seen _ hn' => exact absurd hn' hn
    | visit _ _ hg =>
      obtain ⟨hgrant, hrefuse⟩ := ih hg
      exact ⟨hgrant, fun hr => ⟨(hrefuse hr).1, fun hc => (hrefuse hr).2 (by simpa using hc)⟩⟩
  | leafHit hm =>
    intro ms V' ex hg
    cases hg
    exact ⟨fun _ => hm, by simp⟩
  | leafMiss hm =>
    intro ms V' ex hg
    cases hg
    exact ⟨by simp, fun _ => ⟨rfl, fun _ => hm⟩⟩
  | hinted hh => exact absurd hh (hnot _ _)
  | goto _ _ ih => intro ms V' ex hg; cases hg with | goto hg => exact ih hg
  | any _ ih => intro ms V' ex hg; cases hg with | any hg => exact ih hg
  | all _ ih => intro ms V' ex hg; cases hg with | all hg => exact ih hg
  | anyNil =>
    intro ms V' ex hg
    cases hg
    exact ⟨by simp, fun _ => ⟨rfl, fun _ => Set.notMem_empty _⟩⟩
  | anyHit _ ih =>
    intro ms V' ex hg
    cases hg with
    | anyCons hp _ => exact ⟨fun _ => Or.inl ((ih hp).1 rfl), by simp⟩
  | anyMiss _ _ ih₁ ih₂ =>
    intro ms V' ex hg
    cases hg with
    | anyCons hp hps =>
      obtain ⟨rfl, hmiss⟩ := (ih₁ hp).2 rfl
      obtain ⟨hgrant, hrefuse⟩ := ih₂ hps
      refine ⟨fun hg => Or.inr (hgrant hg), fun hr => ⟨(hrefuse hr).1, fun hc => ?_⟩⟩
      have hc' := not_or.mp (fun h => hc (List.mem_append.mpr h))
      rintro (ht | ht)
      · exact hmiss hc'.1 ht
      · exact (hrefuse hr).2 hc'.2 ht
  | allNil => intro ms V' ex hg; cases hg; exact ⟨fun _ => Set.mem_univ _, by simp⟩
  | allCut _ _ _ =>
    intro ms V' ex hg
    cases hg with
    | allCons _ _ => exact ⟨by simp, fun _ => ⟨rfl, by simp⟩⟩
  | allMiss _ _ ih =>
    intro ms V' ex hg
    cases hg with
    | allCons hp _ => exact ⟨by simp, fun _ => ⟨rfl, fun hc ht => ((ih hp).2 rfl).2 hc ht.1⟩⟩
  | allHit _ _ _ ih₁ ih₂ =>
    intro ms V' ex hg
    cases hg with
    | allCons hp hps =>
      obtain ⟨hgrant, hrefuse⟩ := ih₂ hps
      refine ⟨fun hg => ⟨(ih₁ hp).1 rfl, hgrant hg⟩, fun hr => ⟨(hrefuse hr).1, fun hc ht => ?_⟩⟩
      exact (hrefuse hr).2 (fun h => hc (List.mem_append.mpr (Or.inr h))) ht.2
  | baseCut _ _ _ => intro ms V' ex hg; cases hg; exact ⟨by simp, fun _ => ⟨rfl, by simp⟩⟩
  | baseMiss _ _ ih =>
    intro ms V' ex hg
    cases hg with
    | diff ha _ => exact ⟨by simp, fun _ => ⟨rfl, fun hc ht => ((ih ha).2 rfl).2 hc ht.1⟩⟩
  | subCut _ _ _ _ _ _ => intro ms V' ex hg; cases hg; exact ⟨by simp, fun _ => ⟨rfl, by simp⟩⟩
  | @sub d a b s s₁ g s₂ tr₁ tr₂ _ _ hb hcut₂ iha ihb =>
    intro ms V' ex hg
    cases hg with
    | diff hga hgb =>
      refine ⟨fun hg => ?_, fun hr => ⟨rfl, fun _ ht => ?_⟩⟩
      · -- the subtracted operand was refused uncut, so nothing in it was cut either
        obtain rfl : g = false := by simpa using hg
        exact ⟨(iha hga).1 rfl, ((ihb hgb).2 rfl).2 (hb.no_cutOperand hcut₂)⟩
      · obtain rfl : g = true := by simpa using hr
        exact ht.2 ((ihb hgb).1 rfl)

end Search
