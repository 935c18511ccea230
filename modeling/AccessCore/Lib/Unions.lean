/-
  Walks over plans that only unite.

  Such plans have no operand, so nothing ever starts a fresh scope: the marking that goes before a
  search, the search itself and the tour that collects are one depth-first walk.  They differ in
  where they stop.  Marking and touring go to the end, so they enter the same nodes
  (`Marks.tours`).  A search stops at its first grant: until then it has visited nodes of the
  marking only, and if it is refused it has visited all of them (`Runs.lockstep`).

  So what was marked for one root is enough for a search from that root (`Checks.marked`), and a
  refusal means that no node of the tour lists the member (`Runs.refusal`).
-/
import AccessCore.Lib.Marking
import AccessCore.Lib.Tour

namespace Plan

variable {ν μ : Type}

/-- Only unions above the leaves and the references. -/
inductive Unites : Plan ν μ → Prop where
  | leaf (members) : Unites (.leaf members)
  | goto (node hops hinted) : Unites (.goto node hops hinted)
  | any {plans} (h : ∀ p ∈ plans, Unites p) : Unites (.any plans)

end Plan

namespace Search

variable {ν μ : Type} {S : Search ν μ} {d : Nat} {c : Call ν μ} {V V' : List ν}

/-- The trees of the call only unite. -/
def Unites : Call ν μ → Prop
  | .node _ => True
  | .tree p => p.Unites
  | .anyOf ps => ∀ p ∈ ps, p.Unites
  | .allOf _ => False

theorem Unites.children {ps : List (Plan ν μ)} (h : (Plan.any ps).Unites) :
    Unites (.anyOf ps : Call ν μ) := by
  cases h with
  | any h => exact h

/-! ## Marking is touring -/

/-- **Marking enters the nodes of the tour**, where no hint is given. -/
theorem Marks.tours (hunites : ∀ n, (S.rule n).Unites) (hnone : ∀ n, S.hint n = none)
    (h : Marks S d c V V') :
    Unites c → ∃ es, Tours S.rule S.bound d c V es ∧ V' = after V es := by
  induction h with
  | @skip d n V hskip =>
    intro _
    rcases Nat.lt_or_ge S.bound d with hdeep | hd
    · exact ⟨[], .tooDeep hdeep, rfl⟩
    · rcases hskip with hseen | hdeep
      · exact ⟨[], .seen hd hseen, rfl⟩
      · exact absurd hdeep (Nat.not_lt.mpr hd)
  | @visit d n V V' hd hn _ ih =>
    intro _
    obtain ⟨es, htour, rfl⟩ := ih (hunites n)
    exact ⟨(n, d) :: es, .enter hd hn htour, (after_cons V n d es).symm⟩
  | leaf => exact fun _ => ⟨[], .leaf, rfl⟩
  | hinted hh =>
    obtain ⟨k, hk, -⟩ := hh
    rw [hnone] at hk
    cases hk
  | goto _ _ ih =>
    intro _
    obtain ⟨es, htour, rfl⟩ := ih trivial
    exact ⟨es, .goto htour, rfl⟩
  | any _ ih =>
    intro hu
    obtain ⟨es, htour, rfl⟩ := ih (Unites.children hu)
    exact ⟨es, .any htour, rfl⟩
  | all _ _ => intro hu; cases hu
  | diff _ _ _ _ => intro hu; cases hu
  | anyNil => exact fun _ => ⟨[], .anyNil, rfl⟩
  | @anyCons d p ps V V₁ V₂ _ _ ihp ihps =>
    intro hu
    obtain ⟨es, htour, rfl⟩ := ihp (hu p List.mem_cons_self)
    obtain ⟨es', htour', rfl⟩ := ihps fun q hq => hu q (List.mem_cons_of_mem _ hq)
    exact ⟨es ++ es', .anyCons htour htour', (after_append V es es').symm⟩
  | allNil => intro hu; cases hu
  | allCons _ _ _ _ => intro hu; cases hu

/-- A tour depends on the rule at the entered nodes only. -/
theorem Tours.congr {rule rule' : ν → Plan ν μ} {bound : Nat} {es : List (ν × Nat)}
    (h : Tours rule bound d c V es) :
    (∀ e ∈ es, rule e.1 = rule' e.1) → Tours rule' bound d c V es := by
  induction h with
  | tooDeep hd => exact fun _ => .tooDeep hd
  | seen hd hn => exact fun _ => .seen hd hn
  | enter hd hn _ ih =>
    intro hsame
    have htree := ih fun e he => hsame e (List.mem_cons_of_mem _ he)
    have hhere := hsame _ List.mem_cons_self
    rw [hhere] at htree
    exact .enter hd hn htree
  | leaf => exact fun _ => .leaf
  | goto _ ih => exact fun hsame => .goto (ih hsame)
  | any _ ih => exact fun hsame => .any (ih hsame)
  | anyNil => exact fun _ => .anyNil
  | anyCons _ _ ihp ihps =>
    intro hsame
    apply Tours.anyCons
    · exact ihp fun e he => hsame e (List.mem_append_left _ he)
    · exact ihps fun e he => hsame e (List.mem_append_right _ he)

/-! ## Searching is touring, until it is granted -/

/-- **Lockstep.**  What a search visits is marked; after a refusal the marked nodes are the visited
ones.  The induction is on the search, along which the marking is read off. -/
theorem Runs.lockstep (hunites : ∀ n, (S.rule n).Unites) {s s' : Scope ν} {g : Bool}
    {tr : List (Event ν)} (h : Runs S d c s g s' tr) :
    Unites c → ∀ {V'}, Marks S d c s.visited V' →
      (∀ n k, Event.visit n k ∈ tr → n ∈ V') ∧ (g = false → V' = s'.visited) := by
  -- A step that visits nothing and leaves the marking where it is.
  have hstill : ∀ {V : List ν}, (∀ n k, Event.visit n k ∈ ([] : List (Event ν)) → n ∈ V) :=
    fun n k hn => absurd hn List.not_mem_nil
  induction h with
  | @tooDeep d n s hd =>
    intro _ V' hm
    cases hm with
    | skip _ =>
      refine ⟨fun m k hmem => ?_, fun _ => rfl⟩
      cases List.mem_singleton.mp hmem
    | visit hd' _ _ => exact absurd hd (Nat.not_lt.mpr hd')
  | seen hd hn =>
    intro _ V' hm
    cases hm with
    | skip _ => exact ⟨hstill, fun _ => rfl⟩
    | visit _ hn' _ => exact absurd hn hn'
  | @visit d n s g s' tr hd hn _ ih =>
    intro _ V' hm
    cases hm with
    | skip hskip =>
      rcases hskip with hseen | hdeep
      · exact absurd hseen hn
      · exact absurd hdeep (Nat.not_lt.mpr hd)
    | visit _ _ hm =>
      obtain ⟨hvisits, hrefuse⟩ := ih (hunites n) hm
      refine ⟨fun m k hmem => ?_, hrefuse⟩
      rcases List.mem_cons.mp hmem with heq | hmem
      · cases heq
        exact hm.subset List.mem_cons_self
      · exact hvisits m k hmem
  | leafHit _ => intro _ V' hm; cases hm; exact ⟨hstill, fun _ => rfl⟩
  | leafMiss _ => intro _ V' hm; cases hm; exact ⟨hstill, fun _ => rfl⟩
  | hinted hh =>
    intro _ V' hm
    cases hm with
    | hinted _ => exact ⟨hstill, fun _ => rfl⟩
    | goto hh' _ => exact absurd hh (hh' rfl)
  | goto hh _ ih =>
    intro _ V' hm
    cases hm with
    | hinted hh' => exact absurd hh' (hh rfl)
    | goto _ hm => exact ih trivial hm
  | any _ ih =>
    intro hu V' hm
    cases hm with
    | any hm => exact ih (Unites.children hu) hm
  | all _ _ => intro hu; cases hu
  | anyNil => intro _ V' hm; cases hm; exact ⟨hstill, fun _ => rfl⟩
  | anyHit _ ih =>
    intro hu V' hm
    cases hm with
    | anyCons hp hps =>
      obtain ⟨hvisits, -⟩ := ih (hu _ List.mem_cons_self) hp
      exact ⟨fun n k hn => hps.subset (hvisits n k hn), fun hg => by cases hg⟩
  | anyMiss _ _ ihp ihps =>
    intro hu V' hm
    cases hm with
    | anyCons hp hps =>
      obtain ⟨hvisits, hrefuse⟩ := ihp (hu _ List.mem_cons_self) hp
      obtain rfl := hrefuse rfl
      obtain ⟨hvisits', hrefuse'⟩ := ihps (fun q hq => hu q (List.mem_cons_of_mem _ hq)) hps
      refine ⟨fun n k hn => ?_, hrefuse'⟩
      rcases List.mem_append.mp hn with hn | hn
      · exact hps.subset (hvisits n k hn)
      · exact hvisits' n k hn
  | allNil => intro hu; cases hu
  | allCut _ _ _ => intro hu; cases hu
  | allMiss _ _ _ => intro hu; cases hu
  | allHit _ _ _ _ _ => intro hu; cases hu
  | baseCut _ _ _ => intro hu; cases hu
  | baseMiss _ _ _ => intro hu; cases hu
  | subCut _ _ _ _ _ _ => intro hu; cases hu
  | sub _ _ _ _ _ _ => intro hu; cases hu

/-- A check of one root is one run from it. -/
theorem Checks.run {n : ν} {g cut : Bool} {tr : List (Event ν)}
    (h : Checks S [n] false g cut tr) : ∃ s, Runs S 0 (.node n) .fresh g s tr := by
  cases h with
  | grant hrun => exact ⟨_, hrun⟩
  | next hrun hrest =>
    cases hrest
    rw [List.append_nil]
    exact ⟨_, hrun⟩

/-- What is marked from one root is enough for a search from that root. -/
theorem Checks.marked (hunites : ∀ n, (S.rule n).Unites) {n : ν} {g cut : Bool}
    {tr : List (Event ν)} (h : Checks S [n] false g cut tr) (hm : MarksFrom S [n] [] V) :
    ∀ m k, Event.visit m k ∈ tr → m ∈ V := by
  obtain ⟨s, hrun⟩ := h.run
  cases hm with
  | cons hm hrest =>
    cases hrest
    exact (hrun.lockstep hunites trivial hm).1

/-- **A refusal has toured everything** and found the member nowhere, whatever hints there are. -/
theorem Runs.refusal (hunites : ∀ n, (S.rule n).Unites) {s s' : Scope ν} {g : Bool}
    {tr : List (Event ν)} (h : Runs S d c s g s' tr) :
    g = false → Unites c → ∃ es, Tours S.rule S.bound d c s.visited es ∧
      s'.visited = after s.visited es ∧ ¬ CallLists S.target c ∧
      ∀ e ∈ es, ¬ Lists S.target (S.rule e.1) := by
  have hnone : ∀ e ∈ ([] : List (ν × Nat)), ¬ Lists S.target (S.rule e.1) :=
    fun e he => absurd he List.not_mem_nil
  induction h with
  | tooDeep hd => exact fun _ _ => ⟨[], .tooDeep hd, rfl, id, hnone⟩
  | seen hd hn => exact fun _ _ => ⟨[], .seen hd hn, rfl, id, hnone⟩
  | @visit d n s g s' tr hd hn _ ih =>
    intro hg _
    obtain ⟨es, htour, hafter, hlists, hmiss⟩ := ih hg (hunites n)
    refine ⟨(n, d) :: es, .enter hd hn htour, hafter.trans (after_cons _ n d es).symm, id, ?_⟩
    intro e he
    rcases List.mem_cons.mp he with rfl | he
    · exact hlists
    · exact hmiss e he
  | leafHit _ => intro hg; cases hg
  | leafMiss hm =>
    intro _ _
    refine ⟨[], .leaf, rfl, fun hlists => ?_, hnone⟩
    cases hlists with
    | leaf hmem => exact hm hmem
  | hinted _ => intro hg; cases hg
  | goto _ _ ih =>
    intro hg _
    obtain ⟨es, htour, hafter, -, hmiss⟩ := ih hg trivial
    refine ⟨es, .goto htour, hafter, fun hlists => ?_, hmiss⟩
    cases hlists
  | any _ ih =>
    intro hg hu
    obtain ⟨es, htour, hafter, hlists, hmiss⟩ := ih hg (Unites.children hu)
    refine ⟨es, .any htour, hafter, fun hany => ?_, hmiss⟩
    cases hany with
    | any hp hlist => exact hlists ⟨_, hp, hlist⟩
  | all _ _ => intro _ hu; cases hu
  | anyNil =>
    refine fun _ _ => ⟨[], .anyNil, rfl, fun hlists => ?_, hnone⟩
    obtain ⟨p, hp, -⟩ := hlists
    cases hp
  | anyHit _ _ => intro hg; cases hg
  | @anyMiss d p ps s s₁ g s₂ tr₁ tr₂ _ _ ihp ihps =>
    intro hg hu
    obtain ⟨es, htour, hafter, hlists, hmiss⟩ := ihp rfl (hu p List.mem_cons_self)
    obtain ⟨es', htour', hafter', hlists', hmiss'⟩ :=
      ihps hg fun q hq => hu q (List.mem_cons_of_mem _ hq)
    rw [hafter] at htour' hafter'
    refine ⟨es ++ es', .anyCons htour htour', ?_, ?_, fun e he => ?_⟩
    · rw [hafter', after_append]
    · rintro ⟨q, hq, hlist⟩
      rcases List.mem_cons.mp hq with rfl | hq
      · exact hlists hlist
      · exact hlists' ⟨q, hq, hlist⟩
    · rcases List.mem_append.mp he with he | he
      · exact hmiss e he
      · exact hmiss' e he
  | allNil => intro hg; cases hg
  | allCut _ _ _ => intro _ hu; cases hu
  | allMiss _ _ _ => intro _ hu; cases hu
  | allHit _ _ _ _ _ => intro _ hu; cases hu
  | baseCut _ _ _ => intro _ hu; cases hu
  | baseMiss _ _ _ => intro _ hu; cases hu
  | subCut _ _ _ _ _ _ => intro _ hu; cases hu
  | sub _ _ _ _ _ _ => intro _ hu; cases hu

end Search
