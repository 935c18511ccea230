/-
  What conditions decide: `evalCondition` and `decide` under missing information
  (`authz/domain/policy/evaluate-condition.ts`, `decide.ts`), and what `parseCondition` promises
  (`condition.ts`).

  A condition is a three-valued formula over its leaves.  That gives both directions at once: a
  determined outcome survives every choice of truth values for the undetermined leaves, each
  occurrence by itself, and an undetermined outcome survives none.  So a permit stands under every
  choice (`decide_under_choices`), and a condition is decided exactly when the choices do not
  matter.

  The checker admits three kinds of leaves that the evaluator cannot decide although every
  attribute is there: `in` with the clock as needle, the clock compared with an address text that
  is no date, and a literal that is no address.  `evalCondition_decided` says that these are all.
-/
import AccessCore.Lib.Kleene
import AccessCore.Authz.Policy

namespace AccessCore

open Kleene (Formula)

/-! ## Conditions as formulas -/

/-- A comparison, membership or range test. -/
inductive ConditionLeaf where
  | cmp (op : CmpOp) (left right : Term)
  | isIn (needle : Term) (set : List SetElement)
  | ipInCidr (ip : Term) (cidrs : List String)

/-- Structural induction, with the hypothesis for every child. -/
@[elab_as_elim, induction_eliminator]
theorem Condition.induct {motive : Condition → Prop}
    (and : ∀ children, (∀ c ∈ children, motive c) → motive (.and children))
    (or : ∀ children, (∀ c ∈ children, motive c) → motive (.or children))
    (not : ∀ child, motive child → motive (.not child))
    (cmp : ∀ op left right, motive (.cmp op left right))
    (isIn : ∀ needle set, motive (.isIn needle set))
    (ipInCidr : ∀ ip cidrs, motive (.ipInCidr ip cidrs)) (c : Condition) : motive c :=
  Condition.rec (motive_1 := motive) (motive_2 := fun cs => ∀ c ∈ cs, motive c)
    and or not cmp isIn ipInCidr
    (fun _ h => absurd h List.not_mem_nil)
    (fun c cs hc hcs d hd => by
      rcases List.mem_cons.mp hd with rfl | hd
      · exact hc
      · exact hcs d hd) c

mutual
def Condition.formula : Condition → Formula ConditionLeaf
  | .and children => .all (formulas children)
  | .or children => .any (formulas children)
  | .not child => .not (Condition.formula child)
  | .cmp op left right => .atom (.cmp op left right)
  | .isIn needle set => .atom (.isIn needle set)
  | .ipInCidr ip cidrs => .atom (.ipInCidr ip cidrs)
def formulas : List Condition → List (Formula ConditionLeaf)
  | [] => []
  | child :: children => Condition.formula child :: formulas children
end

section Leaves

variable (dateParse : String → Option Int) (ctx : PolicyContext)

/-- What the evaluator makes of a leaf. -/
def leafVerdict : ConditionLeaf → Verdict
  | .cmp op left right => compare dateParse op (resolveTerm ctx left) (resolveTerm ctx right)
  | .isIn needle set => evalIn (resolveTerm ctx needle) set
  | .ipInCidr ip cidrs => evalIpInCidr (resolveTerm ctx ip) cidrs

/-- The evaluator is the three-valued evaluation of the formula. -/
theorem evalCondition_eq (c : Condition) :
    evalCondition dateParse ctx c = Kleene.verdict (leafVerdict dateParse ctx) c.formula := by
  induction c with
  | and children ih =>
    rw [evalCondition, Condition.formula, Kleene.verdict]
    have loop : ∀ (cs : List Condition) (result : Verdict), cs ⊆ children →
        evalAnd dateParse ctx cs result =
          Kleene.verdictAll (leafVerdict dateParse ctx) (formulas cs) result := by
      intro cs
      induction cs with
      | nil => intro result _; rfl
      | cons c cs ihc =>
        intro result hsub
        obtain ⟨hc, hcs⟩ := List.cons_subset.mp hsub
        rw [evalAnd, formulas, Kleene.verdictAll, ih c hc, ihc _ hcs, ihc _ hcs]
        cases Kleene.verdict (leafVerdict dateParse ctx) c.formula with
        | none => rfl
        | some b => cases b <;> rfl
    exact loop children _ (List.Subset.refl _)
  | or children ih =>
    rw [evalCondition, Condition.formula, Kleene.verdict]
    have loop : ∀ (cs : List Condition) (result : Verdict), cs ⊆ children →
        evalOr dateParse ctx cs result =
          Kleene.verdictAny (leafVerdict dateParse ctx) (formulas cs) result := by
      intro cs
      induction cs with
      | nil => intro result _; rfl
      | cons c cs ihc =>
        intro result hsub
        obtain ⟨hc, hcs⟩ := List.cons_subset.mp hsub
        rw [evalOr, formulas, Kleene.verdictAny, ih c hc, ihc _ hcs, ihc _ hcs]
        cases Kleene.verdict (leafVerdict dateParse ctx) c.formula with
        | none => rfl
        | some b => cases b <;> rfl
    exact loop children _ (List.Subset.refl _)
  | not child ih => rw [evalCondition, Condition.formula, Kleene.verdict, ih]
  | cmp op left right => rw [evalCondition, Condition.formula, Kleene.verdict, leafVerdict]
  | isIn needle set => rw [evalCondition, Condition.formula, Kleene.verdict, leafVerdict]
  | ipInCidr ip cidrs => rw [evalCondition, Condition.formula, Kleene.verdict, leafVerdict]

/-- The truth value of a condition when every occurrence of an undetermined leaf is given one:
`σ` is asked with the child indices that lead to the leaf. -/
def evalUnder (σ : List Nat → Bool) (c : Condition) : Bool :=
  Kleene.value (leafVerdict dateParse ctx) σ c.formula

/-- A determined outcome is the outcome under every choice. -/
theorem evalUnder_of_eval {c : Condition} {b : Bool} (h : evalCondition dateParse ctx c = some b)
    (σ : List Nat → Bool) : evalUnder dateParse ctx σ c = b := by
  rw [evalCondition_eq] at h
  exact Kleene.value_of_verdict h σ

end Leaves

/-! ## Decisions under every choice -/

variable {dateParse : String → Option Int}

/-- `decide`, with the outcome of each policy's condition given by its place in the list. -/
def decideBy (rebac : Decision) (policies : List (Policy dateParse))
    (outcome : Nat → Policy dateParse → Verdict) : Decision :=
  let numbered := policies.zipIdx
  match numbered.find? fun p => p.1.effect = .forbid && outcome p.2 p.1 ≠ some false with
  | some (policy, _) =>
    deny [⟨"forbid_matched", "Denied by an explicit forbid policy (" ++ policy.id ++ ").",
      none, none⟩]
  | none =>
    if rebac.effect = .permit then rebac
    else
      match numbered.find? fun p => p.1.effect = .permit && outcome p.2 p.1 = some true with
      | some (policy, _) =>
        permit [⟨"grant.policy", "Permitted by policy " ++ policy.id ++ ".", none, none⟩]
      | none => rebac

/-- Finding by what an element is, its number apart, finds the same element. -/
theorem find?_zipIdx {α : Type} (p : α → Bool) (as : List α) (i : Nat) :
    ((as.zipIdx i).find? fun a => p a.1).map (·.1) = as.find? p := by
  induction as generalizing i with
  | nil => rfl
  | cons a as ih =>
    rw [List.zipIdx_cons, List.find?_cons, List.find?_cons]
    cases p a with
    | true => rfl
    | false => exact ih (i + 1)

/-- `decide` evaluates every condition in the context. -/
theorem decidePolicies_eq (rebac : Decision) (policies : List (Policy dateParse))
    (ctx : PolicyContext) : decidePolicies rebac policies ctx =
      decideBy rebac policies fun _ policy => evalCondition dateParse ctx policy.condition := by
  have hforbid := find?_zipIdx (fun policy : Policy dateParse =>
    policy.effect = .forbid && evalCondition dateParse ctx policy.condition ≠ some false) policies 0
  have hpermit := find?_zipIdx (fun policy : Policy dateParse =>
    policy.effect = .permit && evalCondition dateParse ctx policy.condition = some true) policies 0
  unfold decidePolicies decideBy forbidding permitting
  rw [← hforbid, ← hpermit]
  dsimp only
  cases (policies.zipIdx.find? fun p => p.1.effect = .forbid &&
      evalCondition dateParse ctx p.1.condition ≠ some false) with
  | some found => rfl
  | none =>
    cases (policies.zipIdx.find? fun p => p.1.effect = .permit &&
        evalCondition dateParse ctx p.1.condition = some true) with
    | some found => rfl
    | none => rfl

/-- When a decision permits: no forbid policy may apply, and somebody grants. -/
theorem decideBy_permit {rebac : Decision} {policies : List (Policy dateParse)}
    {outcome : Nat → Policy dateParse → Verdict} :
    (decideBy rebac policies outcome).effect = .permit ↔
      (∀ p ∈ policies.zipIdx, p.1.effect = .forbid → outcome p.2 p.1 = some false) ∧
      (rebac.effect = .permit ∨
        ∃ p ∈ policies.zipIdx, p.1.effect = .permit ∧ outcome p.2 p.1 = some true) := by
  unfold decideBy
  dsimp only
  cases hforbid : (policies.zipIdx.find? fun p =>
      p.1.effect = .forbid && outcome p.2 p.1 ≠ some false) with
  | some found =>
    have hfound := List.find?_some hforbid
    have hmem := List.mem_of_find?_eq_some hforbid
    obtain ⟨heffect, houtcome⟩ : found.1.effect = .forbid ∧ outcome found.2 found.1 ≠ some false :=
      by simpa using hfound
    constructor
    · intro h
      cases h
    · rintro ⟨hnone, -⟩
      exact absurd (hnone found hmem heffect) houtcome
  | none =>
    have hnone : ∀ p ∈ policies.zipIdx, p.1.effect = .forbid → outcome p.2 p.1 = some false := by
      intro p hp heffect
      have hp' := List.find?_eq_none.mp hforbid p hp
      by_contra hne
      exact hp' (by simp [heffect, hne])
    by_cases hrebac : rebac.effect = .permit
    · simp only [hrebac, if_true, true_or, and_true, true_iff]
      exact hnone
    · simp only [hrebac, if_false, false_or]
      cases hpermit : (policies.zipIdx.find? fun p =>
          p.1.effect = .permit && outcome p.2 p.1 = some true) with
      | some found =>
        have hfound := List.find?_some hpermit
        have hmem := List.mem_of_find?_eq_some hpermit
        obtain ⟨heffect, houtcome⟩ : found.1.effect = .permit ∧
            outcome found.2 found.1 = some true :=
          by simpa using hfound
        constructor
        · intro _
          exact ⟨hnone, found, hmem, heffect, houtcome⟩
        · intro _
          rfl
      | none =>
        constructor
        · intro h
          exact absurd h hrebac
        · rintro ⟨-, p, hp, heffect, houtcome⟩
          exact absurd (by simp [heffect, houtcome]) (List.find?_eq_none.mp hpermit p hp)

/-- When `decide` permits: every forbid policy clearly fails to match, and somebody grants. -/
theorem decidePolicies_permit {rebac : Decision} {policies : List (Policy dateParse)}
    {ctx : PolicyContext} : (decidePolicies rebac policies ctx).effect = .permit ↔
      (∀ policy ∈ policies, policy.effect = .forbid →
        evalCondition dateParse ctx policy.condition = some false) ∧
      (rebac.effect = .permit ∨ ∃ policy ∈ policies, policy.effect = .permit ∧
        evalCondition dateParse ctx policy.condition = some true) := by
  have hnumbered : ∀ policy, policy ∈ policies ↔ ∃ i, (policy, i) ∈ policies.zipIdx := by
    intro policy
    simp only [List.mem_zipIdx_iff_getElem?]
    exact List.mem_iff_getElem?
  rw [decidePolicies_eq, decideBy_permit]
  constructor
  · rintro ⟨hforbids, hgrants⟩
    refine ⟨fun policy hpolicy heffect => ?_, hgrants.imp_right ?_⟩
    · obtain ⟨i, hi⟩ := (hnumbered policy).mp hpolicy
      exact hforbids _ hi heffect
    · rintro ⟨p, hp, heffect, houtcome⟩
      exact ⟨p.1, (hnumbered p.1).mpr ⟨p.2, hp⟩, heffect, houtcome⟩
  · rintro ⟨hforbids, hgrants⟩
    refine ⟨fun p hp heffect => ?_, hgrants.imp_right ?_⟩
    · exact hforbids p.1 ((hnumbered p.1).mpr ⟨p.2, hp⟩) heffect
    · rintro ⟨policy, hpolicy, heffect, houtcome⟩
      obtain ⟨i, hi⟩ := (hnumbered policy).mp hpolicy
      exact ⟨_, hi, heffect, houtcome⟩

/-- **Missing information only restricts.**  A decision that permits also permits under every
choice of truth values for the undetermined leaves of its policies, each occurrence by itself.  No
forbid policy of it is undetermined, and a permit policy it rests on applies under every choice. -/
theorem decide_under_choices (rebac : Decision) (policies : List (Policy dateParse))
    (ctx : PolicyContext) (hpermit : (decidePolicies rebac policies ctx).effect = .permit) :
    (∀ σ : Nat → List Nat → Bool, (decideBy rebac policies fun place policy =>
      some (evalUnder dateParse ctx (σ place) policy.condition)).effect = .permit) ∧
    (∀ policy ∈ policies, policy.effect = .forbid →
      evalCondition dateParse ctx policy.condition ≠ none) ∧
    (rebac.effect = .permit ∨ ∃ policy ∈ policies, policy.effect = .permit ∧
      ∀ σ, evalUnder dateParse ctx σ policy.condition = true) := by
  rw [decidePolicies_eq, decideBy_permit] at hpermit
  obtain ⟨hforbids, hgrants⟩ := hpermit
  refine ⟨fun σ => ?_, fun policy hpolicy heffect => ?_, ?_⟩
  · rw [decideBy_permit]
    refine ⟨fun p hp heffect => ?_, ?_⟩
    · rw [evalUnder_of_eval dateParse ctx (hforbids p hp heffect)]
    · rcases hgrants with hrebac | ⟨p, hp, heffect, houtcome⟩
      · exact Or.inl hrebac
      · refine Or.inr ⟨p, hp, heffect, ?_⟩
        rw [evalUnder_of_eval dateParse ctx houtcome]
  · obtain ⟨i, hi⟩ := List.mem_iff_getElem?.mp hpolicy
    have hmem : (policy, i) ∈ policies.zipIdx := List.mem_zipIdx_iff_getElem?.mpr hi
    rw [hforbids _ hmem heffect]
    simp
  · rcases hgrants with hrebac | ⟨p, hp, heffect, houtcome⟩
    · exact Or.inl hrebac
    · have hmem : p.1 ∈ policies := List.mem_of_getElem? (List.mem_zipIdx_iff_getElem?.mp hp)
      exact Or.inr ⟨p.1, hmem, heffect, evalUnder_of_eval dateParse ctx houtcome⟩

/-- No text is a date. -/
def noDates : String → Option Int := fun _ => none

/-- Permitted at level two, or from the office network. -/
def steppedUpOrOffice : Policy noDates where
  id := "stepped-up-or-office"
  orgId := ⟨"acme", by decide⟩
  effect := .permit
  resourceType := "document"
  action := "view"
  condition := .or [.ipInCidr (.attr .envIp) ["10.0.0.0/8"],
    .cmp .ge (.attr .principalAal) (.lit (.number 2))]
  revision := ⟨1⟩
  accepted := by rfl

/-- A request at level two from an unknown address. -/
def addressUnknown : PolicyContext := ⟨some 2, none, none, none⟩

theorem decide_under_choices_addressUnknown :
    (decideBy (deny []) [steppedUpOrOffice] fun place policy =>
      some (evalUnder noDates addressUnknown (fun _ => place = 1) policy.condition)).effect =
        .permit :=
  (decide_under_choices (deny []) [steppedUpOrOffice] addressUnknown (by decide)).1
    fun place _ => place = 1

/-! ## What the checker promises -/

section Checker

variable (dateParse : String → Option Int)

/-- What `parseCondition` demands of a leaf. -/
def LeafAccepted : ConditionLeaf → Prop
  | .cmp op left right => checkCmp dateParse op left right = none
  | .isIn needle set =>
    ∃ first rest, set = first :: rest ∧ comparable (termType needle) first.type = true
  | .ipInCidr ip _ => termType ip = .string

/-- The leaves of an accepted condition are accepted. -/
theorem accepted_leaves (c : Condition) : ∀ {depth nodes counted : Nat},
    parseConditionAt dateParse c depth nodes = .ok counted →
    Kleene.Every (LeafAccepted dateParse) c.formula := by
  have children_accepted : ∀ children : List Condition,
      (∀ c ∈ children, ∀ {depth nodes counted : Nat},
        parseConditionAt dateParse c depth nodes = .ok counted →
        Kleene.Every (LeafAccepted dateParse) c.formula) →
      ∀ {depth nodes counted : Nat},
        parseConditionsAt dateParse children depth nodes = .ok counted →
        Kleene.EveryOf (LeafAccepted dateParse) (formulas children) := by
    intro children hchildren
    induction children with
    | nil => intro depth nodes counted _; trivial
    | cons child children ih =>
      intro depth nodes counted h
      rw [parseConditionsAt] at h
      cases hchild : parseConditionAt dateParse child depth nodes with
      | error e => simp [hchild] at h
      | ok nodes' =>
        simp only [hchild] at h
        refine ⟨hchildren child List.mem_cons_self hchild, ?_⟩
        exact ih (fun c hc => hchildren c (List.mem_cons_of_mem _ hc)) h
  induction c with
  | and children ih =>
    intro depth nodes counted h
    rw [parseConditionAt] at h
    split_ifs at h
    exact children_accepted children ih h
  | or children ih =>
    intro depth nodes counted h
    rw [parseConditionAt] at h
    split_ifs at h
    exact children_accepted children ih h
  | not child ih =>
    intro depth nodes counted h
    rw [parseConditionAt] at h
    split_ifs at h
    exact ih h
  | cmp op left right =>
    intro depth nodes counted h
    rw [parseConditionAt] at h
    split_ifs at h
    show checkCmp dateParse op left right = none
    cases hcheck : checkCmp dateParse op left right with
    | none => rfl
    | some e => simp [hcheck] at h
  | isIn needle set =>
    intro depth nodes counted h
    cases set with
    | nil =>
      rw [parseConditionAt] at h
      split_ifs at h
    | cons first rest =>
      rw [parseConditionAt] at h
      split_ifs at h with hdeep hmany hmixed htype
      exact ⟨first, rest, rfl, by simpa using htype⟩
  | ipInCidr ip cidrs =>
    intro depth nodes counted h
    rw [parseConditionAt] at h
    split_ifs at h with hdeep hmany htype
    show termType ip = .string
    simpa using htype

/-- Every attribute is there, the address parses and the clock is valid. -/
structure PolicyContext.Full (ctx : PolicyContext) : Prop where
  aal : ∃ level, ctx.aal = some level
  ip : ∃ text address, ctx.ip = some text ∧ parseIp text.toList = some address
  now : ∃ time, ctx.now = some (some time)

/-- The address of the request, where a comparison with the clock would have to read it as a
date. -/
def addressNoDate (ctx : PolicyContext) : Term → Bool
  | .attr .envIp => (ctx.ip.bind dateParse).isNone
  | _ => false

/-- The leaves that an accepted condition may have and the evaluator cannot decide. -/
def undecidable (ctx : PolicyContext) : ConditionLeaf → Bool
  | .cmp _ left right =>
    (termType left = .timestamp && addressNoDate dateParse ctx right) ||
      (termType right = .timestamp && addressNoDate dateParse ctx left)
  | .isIn needle _ => termType needle = .timestamp
  | .ipInCidr (.lit (.string text)) _ => (parseIp text.toList).isNone
  | .ipInCidr _ _ => false

/-- What an accepted comparison guarantees of the types of its terms. -/
theorem checkCmp_ok {op : CmpOp} {left right : Term} (h : checkCmp dateParse op left right = none) :
    comparable (termType left) (termType right) = true ∧
    (op = .eq ∨ op = .ne ∨ (termType left = .number ∧ termType right = .number) ∨
      temporalPair (termType left) (termType right) = true) ∧
    (termType left = .timestamp ∨ termType right = .timestamp →
      invalidTimestamp dateParse left = false ∧ invalidTimestamp dateParse right = false) := by
  unfold checkCmp at h
  dsimp only at h
  split_ifs at h with hcomparable hordered hinvalid
  refine ⟨by simpa using hcomparable, ?_, ?_⟩
  · cases op with
    | eq => exact Or.inl rfl
    | ne => exact Or.inr (Or.inl rfl)
    | _ =>
      refine Or.inr (Or.inr ?_)
      by_contra hno
      obtain ⟨hnumbers, htemporal⟩ := not_or.mp hno
      refine hordered ?_
      simp only [Bool.and_eq_true, Bool.not_eq_true']
      refine ⟨⟨by decide, ?_⟩, by simpa using htemporal⟩
      simpa using hnumbers
  · intro htimestamp
    have hnone : ¬ (invalidTimestamp dateParse left = true ∨
        invalidTimestamp dateParse right = true) := by
      intro hor
      refine hinvalid ?_
      simp only [Bool.and_eq_true, Bool.or_eq_true, decide_eq_true_eq]
      exact ⟨htimestamp, hor⟩
    obtain ⟨hleft, hright⟩ := not_or.mp hnone
    exact ⟨by simpa using hleft, by simpa using hright⟩

section Resolve

variable {dateParse} {ctx : PolicyContext}

theorem resolve_number (hctx : ctx.Full) {term : Term} (h : termType term = .number) :
    ∃ x, resolveTerm ctx term = .number x := by
  obtain ⟨level, hlevel⟩ := hctx.aal
  cases term with
  | attr path =>
    cases path with
    | principalAal => exact ⟨level, by rw [resolveTerm, hlevel]; rfl⟩
    | envIp => cases h
    | envNow => cases h
  | lit value =>
    cases value with
    | number x => exact ⟨x, rfl⟩
    | boolean b => cases h
    | string s => cases h

theorem resolve_boolean {term : Term} (h : termType term = .boolean) :
    ∃ b, resolveTerm ctx term = .boolean b := by
  cases term with
  | attr path => cases path <;> cases h
  | lit value =>
    cases value with
    | boolean b => exact ⟨b, rfl⟩
    | number x => cases h
    | string s => cases h

theorem resolve_timestamp (hctx : ctx.Full) {term : Term} (h : termType term = .timestamp) :
    term = .attr .envNow ∧ ∃ time, resolveTerm ctx term = .date (some time) := by
  obtain ⟨time, htime⟩ := hctx.now
  cases term with
  | attr path =>
    cases path with
    | envNow => exact ⟨rfl, time, by rw [resolveTerm, htime]; rfl⟩
    | principalAal => cases h
    | envIp => cases h
  | lit value => cases value <;> cases h

/-- A text is a literal or the address of the request; accepted next to a timestamp, it is a date
unless it is an address that is none. -/
theorem resolve_string (hctx : ctx.Full) {term : Term} (h : termType term = .string) :
    ∃ text, resolveTerm ctx term = .string text ∧
      (invalidTimestamp dateParse term = false →
        (dateParse text = none ↔ addressNoDate dateParse ctx term = true)) := by
  obtain ⟨text, address, htext, -⟩ := hctx.ip
  cases term with
  | attr path =>
    cases path with
    | envIp =>
      refine ⟨text, by rw [resolveTerm, htext]; rfl, fun _ => ?_⟩
      simp [addressNoDate, htext]
    | principalAal => cases h
    | envNow => cases h
  | lit value =>
    cases value with
    | string s =>
      refine ⟨s, rfl, fun hvalid => ?_⟩
      have hdate : (dateParse s).isNone = false := hvalid
      constructor
      · intro hnone
        rw [hnone] at hdate
        cases hdate
      · intro hno
        cases hno
    | number x => cases h
    | boolean b => cases h

theorem resolve_text (hctx : ctx.Full) {term : Term} (h : termType term = .string) :
    ∃ text, resolveTerm ctx term = .string text := by
  obtain ⟨text, htext, -⟩ := @resolve_string (fun _ => none) ctx hctx term h
  exact ⟨text, htext⟩

theorem ordered_ne_none (op : CmpOp) (l r : Rat) : ordered op (some l) (some r) ≠ none := by
  unfold ordered
  simp

theorem equality_ne_none {α : Type} [DecidableEq α] {op : CmpOp} (h : op = .eq ∨ op = .ne)
    (l r : α) : equality op l r ≠ none := by
  rcases h with rfl | rfl
  · simp [equality]
  · simp [equality]

/-- Comparing a point in time with a text is undetermined exactly when the text is no date. -/
theorem compare_date_string (op : CmpOp) (time : Int) (text : String) :
    (compare dateParse op (.date (some time)) (.string text) = none ↔ dateParse text = none) ∧
    (compare dateParse op (.string text) (.date (some time)) = none ↔ dateParse text = none) := by
  cases hdate : dateParse text with
  | none => simp [compare, toEpoch, hdate]
  | some ms =>
    have hleft := ordered_ne_none op (time : Rat) (ms : Rat)
    have hright := ordered_ne_none op (ms : Rat) (time : Rat)
    simp [compare, toEpoch, hdate, hleft, hright]

end Resolve

/-- With every attribute there, the accepted leaves the evaluator cannot decide are the
`undecidable` ones. -/
theorem leafVerdict_none {ctx : PolicyContext} (hctx : ctx.Full) {leaf : ConditionLeaf}
    (h : LeafAccepted dateParse leaf) :
    leafVerdict dateParse ctx leaf = none ↔ undecidable dateParse ctx leaf = true := by
  cases leaf with
  | cmp op left right =>
    obtain ⟨hcomparable, hop, hvalid⟩ := checkCmp_ok dateParse h
    rw [leafVerdict, undecidable]
    cases hl : termType left with
    | number =>
      cases hr : termType right with
      | number =>
        obtain ⟨x, hx⟩ := resolve_number hctx hl
        obtain ⟨y, hy⟩ := resolve_number hctx hr
        rw [hx, hy]
        have hdecided := ordered_ne_none op x y
        simpa [compare] using hdecided
      | _ =>
        rw [hl, hr] at hcomparable
        cases hcomparable
    | boolean =>
      cases hr : termType right with
      | boolean =>
        obtain ⟨x, hx⟩ : ∃ x, resolveTerm ctx left = .boolean x := resolve_boolean hl
        obtain ⟨y, hy⟩ : ∃ y, resolveTerm ctx right = .boolean y := resolve_boolean hr
        have heq : op = .eq ∨ op = .ne := by
          rw [hl, hr] at hop
          simpa [temporalPair] using hop
        rw [hx, hy]
        have hdecided := equality_ne_none heq x y
        simpa [compare] using hdecided
      | _ =>
        rw [hl, hr] at hcomparable
        cases hcomparable
    | string =>
      cases hr : termType right with
      | string =>
        obtain ⟨x, hx⟩ := resolve_text hctx hl
        obtain ⟨y, hy⟩ := resolve_text hctx hr
        have heq : op = .eq ∨ op = .ne := by
          rw [hl, hr] at hop
          simpa [temporalPair] using hop
        rw [hx, hy]
        have hdecided := equality_ne_none heq x y
        simpa [compare] using hdecided
      | timestamp =>
        obtain ⟨text, htext, hdate⟩ := resolve_string hctx hl
        obtain ⟨-, time, htime⟩ := resolve_timestamp hctx hr
        rw [htext, htime, (compare_date_string op time text).2,
          hdate (hvalid (Or.inr hr)).1]
        simp
      | _ =>
        rw [hl, hr] at hcomparable
        cases hcomparable
    | timestamp =>
      cases hr : termType right with
      | timestamp =>
        obtain ⟨hleft, s, hs⟩ := resolve_timestamp hctx hl
        obtain ⟨hright, t, ht⟩ := resolve_timestamp hctx hr
        rw [hs, ht, hleft, hright]
        have hdecided := ordered_ne_none op (s : Rat) (t : Rat)
        simpa [compare, toEpoch, addressNoDate] using hdecided
      | string =>
        obtain ⟨-, time, htime⟩ := resolve_timestamp hctx hl
        obtain ⟨text, htext, hdate⟩ := resolve_string hctx hr
        rw [htext, htime, (compare_date_string op time text).1,
          hdate (hvalid (Or.inl hl)).2]
        simp
      | _ =>
        rw [hl, hr] at hcomparable
        cases hcomparable
  | isIn needle set =>
    obtain ⟨first, rest, -, hcomparable⟩ := h
    rw [leafVerdict, undecidable]
    cases hneedle : termType needle with
    | number =>
      obtain ⟨x, hx⟩ := resolve_number hctx hneedle
      rw [hx]
      simp [evalIn]
    | string =>
      obtain ⟨text, htext⟩ := resolve_text hctx hneedle
      rw [htext]
      simp [evalIn]
    | boolean =>
      rw [hneedle] at hcomparable
      cases first <;> cases hcomparable
    | timestamp =>
      obtain ⟨-, time, htime⟩ := resolve_timestamp hctx hneedle
      rw [htime]
      simp [evalIn]
  | ipInCidr ip cidrs =>
    obtain ⟨text, address, htext, haddress⟩ := hctx.ip
    rw [leafVerdict]
    cases ip with
    | attr path =>
      cases path with
      | envIp =>
        have hresolved : resolveTerm ctx (.attr .envIp) = .string text := by
          rw [resolveTerm, htext]
          rfl
        rw [hresolved]
        simp [evalIpInCidr, haddress, undecidable]
      | principalAal => cases h
      | envNow => cases h
    | lit value =>
      cases value with
      | string literal =>
        show evalIpInCidr (.string literal) cidrs = none ↔ _
        simp [evalIpInCidr, undecidable]
      | number x => cases h
      | boolean b => cases h

/-- The truth value of a condition when its undecidable leaves are given one, each occurrence by
itself. -/
def outcomeUnder (ctx : PolicyContext) (σ : List Nat → Bool) (c : Condition) : Bool :=
  Kleene.value (fun leaf => if undecidable dateParse ctx leaf then none
    else leafVerdict dateParse ctx leaf) σ c.formula

/-- **What acceptance promises.**  With every attribute there, an accepted condition is decided
exactly when the truth values of its undecidable leaves cannot change its own. -/
theorem evalCondition_decided {ctx : PolicyContext} (hctx : ctx.Full) {c : Condition}
    (hparse : parseCondition dateParse c = .ok c) :
    evalCondition dateParse ctx c ≠ none ↔
      ∀ σ τ, outcomeUnder dateParse ctx σ c = outcomeUnder dateParse ctx τ c := by
  obtain ⟨counted, hcounted⟩ : ∃ counted, parseConditionAt dateParse c 0 0 = .ok counted := by
    unfold parseCondition at hparse
    cases hat : parseConditionAt dateParse c 0 0 with
    | ok counted => exact ⟨counted, rfl⟩
    | error e => simp [hat] at hparse
  have hleaves := accepted_leaves dateParse c hcounted
  have hsame : Kleene.verdict (leafVerdict dateParse ctx) c.formula =
      Kleene.verdict (fun leaf => if undecidable dateParse ctx leaf then none
        else leafVerdict dateParse ctx leaf) c.formula := by
    refine Kleene.verdict_congr (hleaves.imp fun leaf hleaf => ?_)
    split_ifs with hundecidable
    · exact (leafVerdict_none dateParse hctx hleaf).mpr hundecidable
    · rfl
  rw [evalCondition_eq, hsame, ← Option.isSome_iff_ne_none]
  exact Kleene.determined_iff

/-- The clock among three dates: accepted, and never decided. -/
def nowAmongDates : Condition :=
  .isIn (.attr .envNow) [.string "2026-01-01", .string "2026-07-04", .string "2026-12-25"]

/-- A request with everything there. -/
def fullRequest : PolicyContext := ⟨some 2, some 0, some "10.0.0.1", some (some 0)⟩

theorem fullRequest_full : fullRequest.Full :=
  ⟨⟨2, rfl⟩, ⟨"10.0.0.1", ⟨32, 167772161⟩, rfl, by decide⟩, ⟨0, rfl⟩⟩

theorem accepted_undetermined : parseCondition dateParse nowAmongDates = .ok nowAmongDates ∧
    evalCondition dateParse fullRequest nowAmongDates = none :=
  ⟨rfl, rfl⟩

theorem evalCondition_not_decided : ∃ c ctx, ctx.Full ∧ ∀ dateParse : String → Option Int,
    parseCondition dateParse c = .ok c ∧ evalCondition dateParse ctx c = none :=
  ⟨nowAmongDates, fullRequest, fullRequest_full, accepted_undetermined⟩

theorem evalCondition_decided_office :
    evalCondition noDates fullRequest steppedUpOrOffice.condition ≠ none := by
  refine (evalCondition_decided noDates fullRequest_full steppedUpOrOffice.accepted).mpr ?_
  intro σ τ
  rfl

end Checker

end AccessCore
