/-
  Three-valued formulas with early exits.

  A formula is built from atoms by conjunctions and disjunctions of lists and by negation.  An atom
  may be undetermined (`none`); `verdict` evaluates from left to right, stops at the operand that
  decides a list, and is undetermined where an undetermined operand could still matter.

  `value` reads the same formula with a boolean for every occurrence of an undetermined atom, each
  occurrence by itself.  A determined verdict is the value under every such choice
  (`value_of_verdict`), and an undetermined one is not: both values are attained
  (`attained_of_verdict`), since occurrences are chosen independently.  Together: a verdict is
  determined exactly when the choices cannot be told apart (`determined_iff`).
-/
import Mathlib

namespace Kleene

variable {α : Type}

inductive Formula (α : Type) where
  | atom (a : α)
  | all (fs : List (Formula α))
  | any (fs : List (Formula α))
  | not (f : Formula α)

/-- Structural induction, with the hypothesis for every operand. -/
@[elab_as_elim, induction_eliminator]
theorem Formula.induct {motive : Formula α → Prop} (atom : ∀ a, motive (.atom a))
    (all : ∀ fs, (∀ f ∈ fs, motive f) → motive (.all fs))
    (any : ∀ fs, (∀ f ∈ fs, motive f) → motive (.any fs))
    (not : ∀ f, motive f → motive (.not f)) (f : Formula α) : motive f :=
  Formula.rec (motive_1 := motive) (motive_2 := fun fs => ∀ f ∈ fs, motive f)
    atom all any not
    (fun _ h => absurd h List.not_mem_nil)
    (fun f fs hf hfs g hg => by
      rcases List.mem_cons.mp hg with rfl | hg
      · exact hf
      · exact hfs g hg) f

section Evaluate

variable (v : α → Option Bool)

mutual
/-- Three-valued evaluation. -/
def verdict : Formula α → Option Bool
  | .atom a => v a
  | .all fs => verdictAll fs (some true)
  | .any fs => verdictAny fs (some false)
  | .not f => (verdict f).map (!·)
/-- Stop at the first false operand; an undetermined one spoils the result so far. -/
def verdictAll : List (Formula α) → Option Bool → Option Bool
  | [], result => result
  | f :: fs, result =>
    match verdict f with
    | some false => some false
    | some true => verdictAll fs result
    | none => verdictAll fs none
/-- Stop at the first true operand; an undetermined one spoils the result so far. -/
def verdictAny : List (Formula α) → Option Bool → Option Bool
  | [], result => result
  | f :: fs, result =>
    match verdict f with
    | some true => some true
    | some false => verdictAny fs result
    | none => verdictAny fs none
end

mutual
/-- Two-valued evaluation: `σ` gives the value of an undetermined atom by where it occurs, as the
list of operand indices that lead to it. -/
def value (σ : List Nat → Bool) : Formula α → Bool
  | .atom a => (v a).getD (σ [])
  | .all fs => valueAll σ 0 fs
  | .any fs => valueAny σ 0 fs
  | .not f => !value (fun at_ => σ (0 :: at_)) f
def valueAll (σ : List Nat → Bool) (i : Nat) : List (Formula α) → Bool
  | [] => true
  | f :: fs => value (fun at_ => σ (i :: at_)) f && valueAll σ (i + 1) fs
def valueAny (σ : List Nat → Bool) (i : Nat) : List (Formula α) → Bool
  | [] => false
  | f :: fs => value (fun at_ => σ (i :: at_)) f || valueAny σ (i + 1) fs
end

end Evaluate

variable {v : α → Option Bool}

/-! ## Determined verdicts -/

/-- A conjunction is false when some operand is. -/
theorem verdictAll_false {fs : List (Formula α)} {result : Option Bool}
    (h : verdictAll v fs result = some false) :
    result = some false ∨ ∃ f ∈ fs, verdict v f = some false := by
  induction fs generalizing result with
  | nil => exact Or.inl h
  | cons f fs ih =>
    rw [verdictAll] at h
    cases hf : verdict v f with
    | none =>
      rw [hf] at h
      rcases ih h with h | ⟨g, hg, h⟩
      · cases h
      · exact Or.inr ⟨g, List.mem_cons_of_mem _ hg, h⟩
    | some b =>
      rw [hf] at h
      cases b with
      | false => exact Or.inr ⟨f, List.mem_cons_self, hf⟩
      | true =>
        rcases ih h with h | ⟨g, hg, h⟩
        · exact Or.inl h
        · exact Or.inr ⟨g, List.mem_cons_of_mem _ hg, h⟩

/-- A conjunction is true only when every operand is. -/
theorem verdictAll_true {fs : List (Formula α)} {result : Option Bool}
    (h : verdictAll v fs result = some true) :
    result = some true ∧ ∀ f ∈ fs, verdict v f = some true := by
  induction fs generalizing result with
  | nil => exact ⟨h, fun _ hf => absurd hf List.not_mem_nil⟩
  | cons f fs ih =>
    rw [verdictAll] at h
    cases hf : verdict v f with
    | none =>
      rw [hf] at h
      obtain ⟨h, -⟩ := ih h
      cases h
    | some b =>
      rw [hf] at h
      cases b with
      | false => cases h
      | true =>
        obtain ⟨h, hfs⟩ := ih h
        exact ⟨h, List.forall_mem_cons.mpr ⟨hf, hfs⟩⟩

/-- An undetermined conjunction has no false operand, and starts or contains something
undetermined. -/
theorem verdictAll_none {fs : List (Formula α)} {result : Option Bool}
    (h : verdictAll v fs result = none) :
    (∀ f ∈ fs, verdict v f ≠ some false) ∧ (result = none ∨ ∃ f ∈ fs, verdict v f = none) := by
  induction fs generalizing result with
  | nil => exact ⟨fun _ hf => absurd hf List.not_mem_nil, Or.inl h⟩
  | cons f fs ih =>
    rw [verdictAll] at h
    cases hf : verdict v f with
    | none =>
      rw [hf] at h
      have hne : verdict v f ≠ some false := by simp [hf]
      exact ⟨List.forall_mem_cons.mpr ⟨hne, (ih h).1⟩, Or.inr ⟨f, List.mem_cons_self, hf⟩⟩
    | some b =>
      rw [hf] at h
      cases b with
      | false => cases h
      | true =>
        obtain ⟨hfs, hsome⟩ := ih h
        have hne : verdict v f ≠ some false := by simp [hf]
        refine ⟨List.forall_mem_cons.mpr ⟨hne, hfs⟩, ?_⟩
        rcases hsome with h | ⟨g, hg, h⟩
        · exact Or.inl h
        · exact Or.inr ⟨g, List.mem_cons_of_mem _ hg, h⟩

theorem verdictAny_true {fs : List (Formula α)} {result : Option Bool}
    (h : verdictAny v fs result = some true) :
    result = some true ∨ ∃ f ∈ fs, verdict v f = some true := by
  induction fs generalizing result with
  | nil => exact Or.inl h
  | cons f fs ih =>
    rw [verdictAny] at h
    cases hf : verdict v f with
    | none =>
      rw [hf] at h
      rcases ih h with h | ⟨g, hg, h⟩
      · cases h
      · exact Or.inr ⟨g, List.mem_cons_of_mem _ hg, h⟩
    | some b =>
      rw [hf] at h
      cases b with
      | true => exact Or.inr ⟨f, List.mem_cons_self, hf⟩
      | false =>
        rcases ih h with h | ⟨g, hg, h⟩
        · exact Or.inl h
        · exact Or.inr ⟨g, List.mem_cons_of_mem _ hg, h⟩

theorem verdictAny_false {fs : List (Formula α)} {result : Option Bool}
    (h : verdictAny v fs result = some false) :
    result = some false ∧ ∀ f ∈ fs, verdict v f = some false := by
  induction fs generalizing result with
  | nil => exact ⟨h, fun _ hf => absurd hf List.not_mem_nil⟩
  | cons f fs ih =>
    rw [verdictAny] at h
    cases hf : verdict v f with
    | none =>
      rw [hf] at h
      obtain ⟨h, -⟩ := ih h
      cases h
    | some b =>
      rw [hf] at h
      cases b with
      | true => cases h
      | false =>
        obtain ⟨h, hfs⟩ := ih h
        exact ⟨h, List.forall_mem_cons.mpr ⟨hf, hfs⟩⟩

theorem verdictAny_none {fs : List (Formula α)} {result : Option Bool}
    (h : verdictAny v fs result = none) :
    (∀ f ∈ fs, verdict v f ≠ some true) ∧ (result = none ∨ ∃ f ∈ fs, verdict v f = none) := by
  induction fs generalizing result with
  | nil => exact ⟨fun _ hf => absurd hf List.not_mem_nil, Or.inl h⟩
  | cons f fs ih =>
    rw [verdictAny] at h
    cases hf : verdict v f with
    | none =>
      rw [hf] at h
      have hne : verdict v f ≠ some true := by simp [hf]
      exact ⟨List.forall_mem_cons.mpr ⟨hne, (ih h).1⟩, Or.inr ⟨f, List.mem_cons_self, hf⟩⟩
    | some b =>
      rw [hf] at h
      cases b with
      | true => cases h
      | false =>
        obtain ⟨hfs, hsome⟩ := ih h
        have hne : verdict v f ≠ some true := by simp [hf]
        refine ⟨List.forall_mem_cons.mpr ⟨hne, hfs⟩, ?_⟩
        rcases hsome with h | ⟨g, hg, h⟩
        · exact Or.inl h
        · exact Or.inr ⟨g, List.mem_cons_of_mem _ hg, h⟩

/-! ## Values of lists -/

/-- A list has the value of its operands at every index. -/
theorem valueAll_true_of {fs : List (Formula α)} {σ : List Nat → Bool} {i : Nat}
    (h : ∀ f ∈ fs, ∀ k, value v (fun at_ => σ (k :: at_)) f = true) : valueAll v σ i fs = true := by
  induction fs generalizing i with
  | nil => rfl
  | cons f fs ih =>
    have hf := h f List.mem_cons_self i
    have hfs : valueAll v σ (i + 1) fs = true := ih fun g hg => h g (List.mem_cons_of_mem _ hg)
    rw [valueAll, hf, hfs, Bool.and_true]

theorem valueAll_false_of {fs : List (Formula α)} {σ : List Nat → Bool} {i : Nat} {f : Formula α}
    (hmem : f ∈ fs) (h : ∀ k, value v (fun at_ => σ (k :: at_)) f = false) :
    valueAll v σ i fs = false := by
  induction fs generalizing i with
  | nil => exact absurd hmem List.not_mem_nil
  | cons g fs ih =>
    rw [valueAll]
    rcases List.mem_cons.mp hmem with rfl | hmem
    · rw [h i, Bool.false_and]
    · rw [ih hmem, Bool.and_false]

theorem valueAny_false_of {fs : List (Formula α)} {σ : List Nat → Bool} {i : Nat}
    (h : ∀ f ∈ fs, ∀ k, value v (fun at_ => σ (k :: at_)) f = false) :
    valueAny v σ i fs = false := by
  induction fs generalizing i with
  | nil => rfl
  | cons f fs ih =>
    have hf := h f List.mem_cons_self i
    have hfs : valueAny v σ (i + 1) fs = false := ih fun g hg => h g (List.mem_cons_of_mem _ hg)
    rw [valueAny, hf, hfs, Bool.or_false]

theorem valueAny_true_of {fs : List (Formula α)} {σ : List Nat → Bool} {i : Nat} {f : Formula α}
    (hmem : f ∈ fs) (h : ∀ k, value v (fun at_ => σ (k :: at_)) f = true) :
    valueAny v σ i fs = true := by
  induction fs generalizing i with
  | nil => exact absurd hmem List.not_mem_nil
  | cons g fs ih =>
    rw [valueAny]
    rcases List.mem_cons.mp hmem with rfl | hmem
    · rw [h i, Bool.true_or]
    · rw [ih hmem, Bool.or_true]

/-- **Determined verdicts are classical**: no choice for the undetermined atoms changes them. -/
theorem value_of_verdict {f : Formula α} {b : Bool} (h : verdict v f = some b)
    (σ : List Nat → Bool) : value v σ f = b := by
  induction f generalizing b σ with
  | atom a =>
    have ha : v a = some b := h
    rw [value, ha, Option.getD_some]
  | all fs ih =>
    rw [verdict] at h
    rw [value]
    cases b with
    | true =>
      obtain ⟨-, hfs⟩ := verdictAll_true h
      exact valueAll_true_of fun f hf _ => ih f hf (hfs f hf) _
    | false =>
      rcases verdictAll_false h with h | ⟨f, hf, hfalse⟩
      · cases h
      · exact valueAll_false_of hf fun _ => ih f hf hfalse _
  | any fs ih =>
    rw [verdict] at h
    rw [value]
    cases b with
    | true =>
      rcases verdictAny_true h with h | ⟨f, hf, htrue⟩
      · cases h
      · exact valueAny_true_of hf fun _ => ih f hf htrue _
    | false =>
      obtain ⟨-, hfs⟩ := verdictAny_false h
      exact valueAny_false_of fun f hf _ => ih f hf (hfs f hf) _
  | not f ih =>
    rw [verdict] at h
    obtain ⟨c, hc, rfl⟩ := Option.map_eq_some_iff.mp h
    rw [value, ih hc]

/-! ## Undetermined verdicts -/

/-- The choice that gives every operand its own choice. -/
def spread (fs : List (Formula α)) (σ : Formula α → List Nat → Bool) : List Nat → Bool
  | [] => false
  | k :: at_ =>
    match fs[k]? with
    | some f => σ f at_
    | none => false

theorem spread_at {fs : List (Formula α)} {σ : Formula α → List Nat → Bool} {k : Nat}
    {f : Formula α} (h : fs[k]? = some f) : (fun at_ => spread fs σ (k :: at_)) = σ f := by
  funext at_
  simp only [spread, h]

/-- The head and the tail of what is left of a list. -/
theorem drop_cons {β : Type} {whole rest : List β} {b : β} {i : Nat}
    (h : whole.drop i = b :: rest) : whole[i]? = some b ∧ whole.drop (i + 1) = rest := by
  constructor
  · have hhead := congrArg List.head? h
    rwa [List.head?_drop, List.head?_cons] at hhead
  · rw [← List.drop_drop, h]
    rfl

theorem valueAll_spread {σ : Formula α → List Nat → Bool} (whole : List (Formula α))
    {fs : List (Formula α)} {i : Nat} (htail : whole.drop i = fs) :
    valueAll v (spread whole σ) i fs = fs.all fun f => value v (σ f) f := by
  induction fs generalizing i with
  | nil => rfl
  | cons f fs ih =>
    obtain ⟨hhead, hrest⟩ := drop_cons htail
    rw [valueAll, spread_at hhead, ih hrest, List.all_cons]

theorem valueAny_spread {σ : Formula α → List Nat → Bool} (whole : List (Formula α))
    {fs : List (Formula α)} {i : Nat} (htail : whole.drop i = fs) :
    valueAny v (spread whole σ) i fs = fs.any fun f => value v (σ f) f := by
  induction fs generalizing i with
  | nil => rfl
  | cons f fs ih =>
    obtain ⟨hhead, hrest⟩ := drop_cons htail
    rw [valueAny, spread_at hhead, ih hrest, List.any_cons]

/-- Operands that each attain a value attain it side by side. -/
theorem attained_together {fs : List (Formula α)} {b : Bool}
    (h : ∀ f ∈ fs, ∃ σ, value v σ f = b) :
    ∃ σ : Formula α → List Nat → Bool, ∀ f ∈ fs, value v (σ f) f = b := by
  classical
  refine ⟨fun f => if hf : f ∈ fs then (h f hf).choose else fun _ => false, fun f hf => ?_⟩
  have hchosen := (h f hf).choose_spec
  simpa [hf] using hchosen

/-- An operand whose verdict is not `!b` attains `b` when its undetermined verdict does. -/
theorem attained_of_ne {f : Formula α} {b : Bool} (hne : verdict v f ≠ some (!b))
    (hnone : verdict v f = none → ∃ σ, value v σ f = b) : ∃ σ, value v σ f = b := by
  cases hf : verdict v f with
  | none => exact hnone hf
  | some c =>
    have hc : c = b := by
      cases b <;> cases c <;> simp_all
    exact ⟨fun _ => false, value_of_verdict (hc ▸ hf) _⟩

/-- **Undetermined verdicts are open**: the choices attain both values. -/
theorem attained_of_verdict {f : Formula α} (h : verdict v f = none) (b : Bool) :
    ∃ σ, value v σ f = b := by
  induction f generalizing b with
  | atom a =>
    have ha : v a = none := h
    exact ⟨fun _ => b, by rw [value, ha, Option.getD_none]⟩
  | all fs ih =>
    rw [verdict] at h
    obtain ⟨hne, hnone⟩ := verdictAll_none h
    cases b with
    | true =>
      obtain ⟨σ, hσ⟩ := attained_together (b := true) fun f hf =>
        attained_of_ne (hne f hf) fun hf' => ih f hf hf' true
      refine ⟨spread fs σ, ?_⟩
      rw [value, valueAll_spread fs List.drop_zero]
      exact List.all_eq_true.mpr hσ
    | false =>
      rcases hnone with h | ⟨f, hf, hf'⟩
      · cases h
      · obtain ⟨σ, hσ⟩ := ih f hf hf' false
        refine ⟨spread fs fun _ => σ, ?_⟩
        rw [value, valueAll_spread fs List.drop_zero]
        exact List.all_eq_false.mpr ⟨f, hf, by simp [hσ]⟩
  | any fs ih =>
    rw [verdict] at h
    obtain ⟨hne, hnone⟩ := verdictAny_none h
    cases b with
    | false =>
      obtain ⟨σ, hσ⟩ := attained_together (b := false) fun f hf =>
        attained_of_ne (hne f hf) fun hf' => ih f hf hf' false
      refine ⟨spread fs σ, ?_⟩
      rw [value, valueAny_spread fs List.drop_zero]
      exact List.any_eq_false.mpr fun f hf => by simp [hσ f hf]
    | true =>
      rcases hnone with h | ⟨f, hf, hf'⟩
      · cases h
      · obtain ⟨σ, hσ⟩ := ih f hf hf' true
        refine ⟨spread fs fun _ => σ, ?_⟩
        rw [value, valueAny_spread fs List.drop_zero]
        exact List.any_eq_true.mpr ⟨f, hf, hσ⟩
  | not f ih =>
    have hf : verdict v f = none := by
      rw [verdict] at h
      exact Option.map_eq_none_iff.mp h
    obtain ⟨σ, hσ⟩ := ih hf (!b)
    refine ⟨fun at_ => σ at_.tail, ?_⟩
    have hvalue : value v (fun at_ => σ at_) f = !b := hσ
    rw [value]
    simp only [List.tail_cons, hvalue, Bool.not_not]

/-- A verdict is determined exactly when no two choices give different values. -/
theorem determined_iff {f : Formula α} :
    (verdict v f).isSome ↔ ∀ σ τ, value v σ f = value v τ f := by
  constructor
  · intro h σ τ
    obtain ⟨b, hb⟩ := Option.isSome_iff_exists.mp h
    rw [value_of_verdict hb σ, value_of_verdict hb τ]
  · intro h
    by_contra hnone
    have hf : verdict v f = none := by simpa using hnone
    obtain ⟨σ, hσ⟩ := attained_of_verdict hf true
    obtain ⟨τ, hτ⟩ := attained_of_verdict hf false
    have hst := h σ τ
    rw [hσ, hτ] at hst
    cases hst

/-! ## Atoms -/

mutual
/-- Every atom of the formula satisfies `P`. -/
def Every (P : α → Prop) : Formula α → Prop
  | .atom a => P a
  | .all fs => EveryOf P fs
  | .any fs => EveryOf P fs
  | .not f => Every P f
def EveryOf (P : α → Prop) : List (Formula α) → Prop
  | [] => True
  | f :: fs => Every P f ∧ EveryOf P fs
end

theorem everyOf_iff {P : α → Prop} {fs : List (Formula α)} :
    EveryOf P fs ↔ ∀ f ∈ fs, Every P f := by
  induction fs with
  | nil => simp [EveryOf]
  | cons f fs ih => rw [EveryOf, ih, List.forall_mem_cons]

theorem Every.imp {P Q : α → Prop} {f : Formula α} (h : Every P f) (hPQ : ∀ a, P a → Q a) :
    Every Q f := by
  induction f with
  | atom a => exact hPQ a h
  | all fs ih =>
    rw [Every, everyOf_iff] at h ⊢
    exact fun f hf => ih f hf (h f hf)
  | any fs ih =>
    rw [Every, everyOf_iff] at h ⊢
    exact fun f hf => ih f hf (h f hf)
  | not f ih =>
    rw [Every] at h ⊢
    exact ih h

/-- The verdict depends on the verdicts of the atoms only. -/
theorem verdict_congr {w : α → Option Bool} {f : Formula α} (h : Every (fun a => v a = w a) f) :
    verdict v f = verdict w f := by
  induction f with
  | atom a => exact h
  | all fs ih =>
    rw [Every, everyOf_iff] at h
    rw [verdict, verdict]
    have step : ∀ (gs : List (Formula α)) (result : Option Bool), gs ⊆ fs →
        verdictAll v gs result = verdictAll w gs result := by
      intro gs
      induction gs with
      | nil => intro result _; rfl
      | cons g gs ihg =>
        intro result hsub
        obtain ⟨hg, hgs⟩ := List.cons_subset.mp hsub
        rw [verdictAll, verdictAll, ih g hg (h g hg), ihg _ hgs, ihg _ hgs]
    exact step fs _ (List.Subset.refl _)
  | any fs ih =>
    rw [Every, everyOf_iff] at h
    rw [verdict, verdict]
    have step : ∀ (gs : List (Formula α)) (result : Option Bool), gs ⊆ fs →
        verdictAny v gs result = verdictAny w gs result := by
      intro gs
      induction gs with
      | nil => intro result _; rfl
      | cons g gs ihg =>
        intro result hsub
        obtain ⟨hg, hgs⟩ := List.cons_subset.mp hsub
        rw [verdictAny, verdictAny, ih g hg (h g hg), ihg _ hgs, ihg _ hgs]
    exact step fs _ (List.Subset.refl _)
  | not f ih =>
    rw [Every] at h
    rw [verdict, verdict, ih h]

end Kleene
