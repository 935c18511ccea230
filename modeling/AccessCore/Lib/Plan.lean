/-
  Plan graphs: what it means for a node to hold when every node is defined by a small AND-OR
  tree over other nodes, with set difference.

  `Plan ν μ` is the tree one node contributes: a `leaf` lists members outright, a `goto` defers
  to another node (consuming some hops, possibly answerable by a hint), and `any` / `all` /
  `diff` combine subtrees.  A *rule* `ν → Plan ν μ` gives every node its tree, cycles included.

  Difference makes the rule non-monotone, so there is no single least meaning in general.  The
  reading used throughout is two-sided: `Holds t X Y p` reads the positive references of `p` in
  `X` and the subtracted ones in `Y`, swapping the two below each `diff`.  On top of it

  * `Least rule t X sub` says that `X` is the least set closed under the rule when every
    subtracted tree is answered by the fixed oracle `sub`;
  * `lower` and `upper` — the alternating fixpoint: two sets, `lower ⊆ upper`, each least with
    respect to the other (`least_lower`, `least_upper`).  They depend on what the trees hold, not
    on how they are written (`bracket_congr`).  A set `M` that is least with respect to itself
    is such a pair with both sets `M`.
-/
import Mathlib

/-- The tree one node contributes.  `goto n w h` defers to node `n`, `w` hops further on; `h`
    says whether a hint about `n` may answer in its place. -/
inductive Plan (ν μ : Type) where
  | leaf (members : List μ)
  | goto (node : ν) (hops : Nat) (hinted : Bool)
  | any (plans : List (Plan ν μ))
  | all (plans : List (Plan ν μ))
  | diff (base subtract : Plan ν μ)

namespace Plan

variable {ν μ : Type} {t : μ}

/-- Structural induction, with the hypothesis for every child of `any` and `all`. -/
@[elab_as_elim, induction_eliminator]
theorem induct {motive : Plan ν μ → Prop}
    (leaf : ∀ ms, motive (.leaf ms))
    (goto : ∀ n w h, motive (.goto n w h))
    (any : ∀ ps, (∀ p ∈ ps, motive p) → motive (.any ps))
    (all : ∀ ps, (∀ p ∈ ps, motive p) → motive (.all ps))
    (diff : ∀ a b, motive a → motive b → motive (.diff a b)) (p : Plan ν μ) : motive p :=
  Plan.rec (motive_1 := motive) (motive_2 := fun ps => ∀ p ∈ ps, motive p)
    leaf goto any all diff (fun _ hp => absurd hp List.not_mem_nil)
    (fun p ps hp hps q hq => by
      rcases List.mem_cons.mp hq with rfl | hq
      · exact hp
      · exact hps q hq) p

mutual
/-- The nodes about which a hint may answer. -/
def hinted : Plan ν μ → List ν
  | .leaf _ => []
  | .goto n _ h => if h then [n] else []
  | .any ps => hintedIn ps
  | .all ps => hintedIn ps
  | .diff a b => hinted a ++ hinted b
/-- The nodes of a list of trees about which a hint may answer. -/
def hintedIn : List (Plan ν μ) → List ν
  | [] => []
  | p :: ps => hinted p ++ hintedIn ps
end

mutual
/-- The nodes about which a hint may answer, with the hops to them. -/
def asks : Plan ν μ → List (ν × Nat)
  | .leaf _ => []
  | .goto n w h => if h then [(n, w)] else []
  | .any ps => asksIn ps
  | .all ps => asksIn ps
  | .diff a b => asks a ++ asks b
/-- The nodes about which a list of trees may ask for a hint. -/
def asksIn : List (Plan ν μ) → List (ν × Nat)
  | [] => []
  | p :: ps => asks p ++ asksIn ps
end

theorem asks_fst (p : Plan ν μ) : p.asks.map Prod.fst = p.hinted := by
  have hin : ∀ ps : List (Plan ν μ), (∀ p ∈ ps, p.asks.map Prod.fst = p.hinted) →
      (asksIn ps).map Prod.fst = hintedIn ps := by
    intro ps hps
    induction ps with
    | nil => rfl
    | cons p ps ih =>
      rw [asksIn, hintedIn, List.map_append, hps p (List.mem_cons_self ..),
        ih fun q hq => hps q (List.mem_cons_of_mem _ hq)]
  induction p with
  | leaf ms => rfl
  | goto n w h => cases h <;> rfl
  | any ps ih => exact hin ps ih
  | all ps ih => exact hin ps ih
  | diff a b iha ihb => rw [asks, hinted, List.map_append, iha, ihb]

mutual
/-- The nodes a tree defers to. -/
def targets : Plan ν μ → List ν
  | .leaf _ => []
  | .goto n _ _ => [n]
  | .any ps => targetsIn ps
  | .all ps => targetsIn ps
  | .diff a b => targets a ++ targets b
/-- The nodes a list of trees defers to. -/
def targetsIn : List (Plan ν μ) → List ν
  | [] => []
  | p :: ps => targets p ++ targetsIn ps
end

mutual
/-- The nodes a tree defers to, with the hops to them. -/
def gotos : Plan ν μ → List (ν × Nat)
  | .leaf _ => []
  | .goto n w _ => [(n, w)]
  | .any ps => gotosIn ps
  | .all ps => gotosIn ps
  | .diff a b => gotos a ++ gotos b
/-- The nodes a list of trees defers to, with the hops to them. -/
def gotosIn : List (Plan ν μ) → List (ν × Nat)
  | [] => []
  | p :: ps => gotos p ++ gotosIn ps
end

theorem gotos_subset_gotosIn {p : Plan ν μ} {ps : List (Plan ν μ)} (hp : p ∈ ps) :
    p.gotos ⊆ gotosIn ps := by
  induction ps with
  | nil => cases hp
  | cons q ps ih =>
    rw [gotosIn]
    rcases List.mem_cons.mp hp with rfl | hp
    · exact List.subset_append_left _ _
    · exact List.Subset.trans (ih hp) (List.subset_append_right _ _)

/-! ## The two-sided reading -/

mutual
/-- `Holds t X Y p` — `t` is a member of `p`, positive references read in `X`, subtracted ones
    in `Y`. -/
def Holds (t : μ) : Set ν → Set ν → Plan ν μ → Prop
  | _, _, .leaf ms => t ∈ ms
  | X, _, .goto n _ _ => n ∈ X
  | X, Y, .any ps => HoldsSome t X Y ps
  | X, Y, .all ps => HoldsEvery t X Y ps
  | X, Y, .diff a b => Holds t X Y a ∧ ¬ Holds t Y X b
/-- Some tree of the list holds. -/
def HoldsSome (t : μ) : Set ν → Set ν → List (Plan ν μ) → Prop
  | _, _, [] => False
  | X, Y, p :: ps => Holds t X Y p ∨ HoldsSome t X Y ps
/-- Every tree of the list holds. -/
def HoldsEvery (t : μ) : Set ν → Set ν → List (Plan ν μ) → Prop
  | _, _, [] => True
  | X, Y, p :: ps => Holds t X Y p ∧ HoldsEvery t X Y ps
end

theorem holdsSome_iff {X Y : Set ν} {ps : List (Plan ν μ)} :
    HoldsSome t X Y ps ↔ ∃ p ∈ ps, Holds t X Y p := by
  induction ps with
  | nil => simp [HoldsSome]
  | cons p ps ih => simp [HoldsSome, ih]

theorem holdsEvery_iff {X Y : Set ν} {ps : List (Plan ν μ)} :
    HoldsEvery t X Y ps ↔ ∀ p ∈ ps, Holds t X Y p := by
  induction ps with
  | nil => simp [HoldsEvery]
  | cons p ps ih => simp [HoldsEvery, ih]

@[simp] theorem holds_leaf {X Y : Set ν} {ms : List μ} : Holds t X Y (.leaf ms) ↔ t ∈ ms := by
  simp [Holds]

@[simp] theorem holds_goto {X Y : Set ν} {n : ν} {w : Nat} {h : Bool} :
    Holds t X Y (.goto n w h : Plan ν μ) ↔ n ∈ X := by
  simp [Holds]

@[simp] theorem holds_any {X Y : Set ν} {ps : List (Plan ν μ)} :
    Holds t X Y (.any ps) ↔ ∃ p ∈ ps, Holds t X Y p := by
  rw [Holds, holdsSome_iff]

@[simp] theorem holds_all {X Y : Set ν} {ps : List (Plan ν μ)} :
    Holds t X Y (.all ps) ↔ ∀ p ∈ ps, Holds t X Y p := by
  rw [Holds, holdsEvery_iff]

@[simp] theorem holds_diff {X Y : Set ν} {a b : Plan ν μ} :
    Holds t X Y (.diff a b) ↔ Holds t X Y a ∧ ¬ Holds t Y X b := by
  rw [Holds]

/-- More positive facts and fewer subtracted ones never lose a member. -/
theorem Holds.mono (p : Plan ν μ) : ∀ {X X' Y Y' : Set ν}, X ⊆ X' → Y' ⊆ Y →
    Holds t X Y p → Holds t X' Y' p := by
  induction p with
  | leaf ms => intro X X' Y Y' _ _ h; simpa using h
  | goto n w h => intro X X' Y Y' hX _ h; exact holds_goto.mpr (hX (holds_goto.mp h))
  | any ps ih =>
    intro X X' Y Y' hX hY h
    obtain ⟨p, hp, h⟩ := holds_any.mp h
    exact holds_any.mpr ⟨p, hp, ih p hp hX hY h⟩
  | all ps ih =>
    intro X X' Y Y' hX hY h
    exact holds_all.mpr fun p hp => ih p hp hX hY (holds_all.mp h p hp)
  | diff a b iha ihb =>
    intro X X' Y Y' hX hY h
    obtain ⟨ha, hb⟩ := holds_diff.mp h
    exact holds_diff.mpr ⟨iha hX hY ha, fun hb' => hb (ihb hY hX hb')⟩

/-! ## Closure with the subtracted trees answered by an oracle -/

mutual
/-- `Derives t X sub p` — `t` is a member of `p` when positive references are read in `X` and a
    subtracted tree `b` counts as holding exactly when `sub b`. -/
def Derives (t : μ) (X : Set ν) (sub : Plan ν μ → Prop) : Plan ν μ → Prop
  | .leaf ms => t ∈ ms
  | .goto n _ _ => n ∈ X
  | .any ps => DerivesSome t X sub ps
  | .all ps => DerivesEvery t X sub ps
  | .diff a b => Derives t X sub a ∧ ¬ sub b
/-- Some tree of the list is derived. -/
def DerivesSome (t : μ) (X : Set ν) (sub : Plan ν μ → Prop) : List (Plan ν μ) → Prop
  | [] => False
  | p :: ps => Derives t X sub p ∨ DerivesSome t X sub ps
/-- Every tree of the list is derived. -/
def DerivesEvery (t : μ) (X : Set ν) (sub : Plan ν μ → Prop) : List (Plan ν μ) → Prop
  | [] => True
  | p :: ps => Derives t X sub p ∧ DerivesEvery t X sub ps
end

@[simp] theorem derives_leaf {X : Set ν} {sub : Plan ν μ → Prop} {ms : List μ} :
    Derives t X sub (.leaf ms) ↔ t ∈ ms := by
  simp [Derives]

@[simp] theorem derives_goto {X : Set ν} {sub : Plan ν μ → Prop} {n : ν} {w : Nat} {h : Bool} :
    Derives t X sub (.goto n w h) ↔ n ∈ X := by
  simp [Derives]

@[simp] theorem derives_any {X : Set ν} {sub : Plan ν μ → Prop} {ps : List (Plan ν μ)} :
    Derives t X sub (.any ps) ↔ ∃ p ∈ ps, Derives t X sub p := by
  rw [Derives]
  induction ps with
  | nil => simp [DerivesSome]
  | cons p ps ih => simp [DerivesSome, ih]

@[simp] theorem derives_all {X : Set ν} {sub : Plan ν μ → Prop} {ps : List (Plan ν μ)} :
    Derives t X sub (.all ps) ↔ ∀ p ∈ ps, Derives t X sub p := by
  rw [Derives]
  induction ps with
  | nil => simp [DerivesEvery]
  | cons p ps ih => simp [DerivesEvery, ih]

@[simp] theorem derives_diff {X : Set ν} {sub : Plan ν μ → Prop} {a b : Plan ν μ} :
    Derives t X sub (.diff a b) ↔ Derives t X sub a ∧ ¬ sub b := by
  rw [Derives]

/-- The two-sided reading is the oracle reading with the swapped reading as oracle. -/
theorem holds_iff_derives (p : Plan ν μ) : ∀ {X Y : Set ν},
    Holds t X Y p ↔ Derives t X (Holds t Y X) p := by
  induction p with
  | leaf ms => intro X Y; simp
  | goto n w h => intro X Y; simp
  | any ps ih =>
    intro X Y
    rw [holds_any, derives_any]
    exact exists_congr fun p => and_congr_right fun hp => ih p hp
  | all ps ih =>
    intro X Y
    rw [holds_all, derives_all]
    exact forall_congr' fun p => imp_congr_right fun hp => ih p hp
  | diff a b iha _ =>
    intro X Y
    rw [holds_diff, derives_diff, iha]

theorem Derives.mono {sub sub' : Plan ν μ → Prop} (hsub : ∀ b, sub' b → sub b) (p : Plan ν μ) :
    ∀ {X X' : Set ν}, X ⊆ X' → Derives t X sub p → Derives t X' sub' p := by
  induction p with
  | leaf ms => intro X X' _ h; simpa using h
  | goto n w h => intro X X' hX h; exact derives_goto.mpr (hX (derives_goto.mp h))
  | any ps ih =>
    intro X X' hX h
    obtain ⟨p, hp, h⟩ := derives_any.mp h
    exact derives_any.mpr ⟨p, hp, ih p hp hX h⟩
  | all ps ih =>
    intro X X' hX h
    exact derives_all.mpr fun p hp => ih p hp hX (derives_all.mp h p hp)
  | diff a b iha _ =>
    intro X X' hX h
    obtain ⟨ha, hb⟩ := derives_diff.mp h
    exact derives_diff.mpr ⟨iha hX ha, fun hb' => hb (hsub b hb')⟩

/-- `X` is the least set of nodes closed under `rule`, subtracted trees answered by `sub`. -/
structure Least (rule : ν → Plan ν μ) (t : μ) (X : Set ν) (sub : Plan ν μ → Prop) : Prop where
  closed : ∀ n, Derives t X sub (rule n) → n ∈ X
  least : ∀ Z : Set ν, (∀ n, Derives t Z sub (rule n) → n ∈ Z) → X ⊆ Z

/-! ## The alternating fixpoint -/

section Bracket

variable (rule : ν → Plan ν μ) (t : μ)

/-- One round of the rule, subtracted references read in `Y`. -/
def round (Y : Set ν) : Set ν →o Set ν where
  toFun X := {n | Holds t X Y (rule n)}
  monotone' := fun _ _ h _ hn => Holds.mono _ h (Set.Subset.refl Y) hn

/-- The nodes derivable when subtracted references are read in `Y`: antitone in `Y`. -/
def reduct (Y : Set ν) : Set ν := (round rule t Y).lfp

theorem reduct_antitone {Y Y' : Set ν} (h : Y ⊆ Y') : reduct rule t Y' ⊆ reduct rule t Y :=
  OrderHom.lfp_le _ fun _ hn =>
    (OrderHom.map_lfp (round rule t Y)).le (Holds.mono _ (Set.Subset.refl _) h hn)

/-- Two rounds of `reduct`: monotone, so it has a least fixpoint. -/
def reductTwice : Set ν →o Set ν where
  toFun Y := reduct rule t (reduct rule t Y)
  monotone' := fun _ _ h => reduct_antitone rule t (reduct_antitone rule t h)

/-- A fixpoint of the reduct is least with respect to its own oracle reading: below `P` the
    oracle that reads subtracted references in the candidate is the stricter one. -/
theorem least_of_reduct {P Q : Set ν} (h : reduct rule t Q = P) : Least rule t P (Holds t Q P) := by
  have hfix : (round rule t Q) P = P := by rw [← h]; exact OrderHom.map_lfp _
  refine ⟨fun n hn => ?_, fun Z hZ => ?_⟩
  · rw [← hfix]
    exact (holds_iff_derives (rule n)).mpr hn
  · -- `P ∩ Z` is already closed under the two-sided round, so it contains `P`
    have hle : reduct rule t Q ⊆ P ∩ Z := by
      refine OrderHom.lfp_le _ fun n hn => ?_
      have hnP : n ∈ P := by
        rw [← hfix]
        exact Holds.mono _ Set.inter_subset_left (Set.Subset.refl Q) hn
      refine ⟨hnP, hZ n ?_⟩
      have hd : Derives t (P ∩ Z) (Holds t Q (P ∩ Z)) (rule n) := (holds_iff_derives _).mp hn
      exact Derives.mono
        (fun b hb => Holds.mono b (Set.Subset.refl Q) Set.inter_subset_left hb) _
        Set.inter_subset_right hd
    rw [h] at hle
    exact fun n hn => (hle hn).2

/-- **The alternating fixpoint.**  What holds however the subtracted trees are read. -/
def lower : Set ν := (reductTwice rule t).lfp

/-- What may hold: the nodes derivable when the subtracted references are read in `lower`. -/
def upper : Set ν := reduct rule t (lower rule t)

theorem reduct_upper : reduct rule t (upper rule t) = lower rule t :=
  OrderHom.map_lfp (reductTwice rule t)

theorem least_lower : Least rule t (lower rule t) (Holds t (upper rule t) (lower rule t)) :=
  least_of_reduct rule t (reduct_upper rule t)

theorem least_upper : Least rule t (upper rule t) (Holds t (lower rule t) (upper rule t)) :=
  least_of_reduct rule t rfl

theorem lower_subset_upper : lower rule t ⊆ upper rule t := by
  -- the upper set is itself a fixpoint of the two rounds, and the lower one is the least
  refine OrderHom.lfp_le _ (le_of_eq ?_)
  show reduct rule t (reduct rule t (upper rule t)) = upper rule t
  rw [reduct_upper]
  rfl

variable {rule t}

/-- Rules that hold the same have the same bracket. -/
theorem bracket_congr {rule' : ν → Plan ν μ}
    (h : ∀ n X Y, Holds t X Y (rule n) ↔ Holds t X Y (rule' n)) :
    lower rule t = lower rule' t ∧ upper rule t = upper rule' t := by
  have hround : ∀ Y, round rule t Y = round rule' t Y := fun Y =>
    OrderHom.ext _ _ (funext fun X => Set.ext fun n => h n X Y)
  have hreduct : ∀ Y, reduct rule t Y = reduct rule' t Y := fun Y => by
    unfold reduct
    rw [hround Y]
  have htwice : reductTwice rule t = reductTwice rule' t := by
    apply OrderHom.ext
    funext Y
    show reduct rule t (reduct rule t Y) = reduct rule' t (reduct rule' t Y)
    rw [hreduct, hreduct]
  have hlower : lower rule t = lower rule' t := by
    unfold lower
    rw [htwice]
  refine ⟨hlower, ?_⟩
  unfold upper
  rw [hreduct, hlower]

end Bracket

end Plan
