/-
  What a deterministic system comes to, when it goes on by itself.

  `Reaches step q s` says that some number of steps takes `s` into `q`.  It chains
  (`Reaches.trans`), and a system that keeps coming closer, by some measure, arrives
  (`Reaches.of_decreasing`).  What it reaches and does not leave, it has from some point on
  (`Reaches.stays`).
-/
import Mathlib

namespace LeadsTo

variable {σ : Type} {step : σ → σ} {p q r : σ → Prop} {s : σ}

/-- Some number of steps leads to `q`. -/
def Reaches (step : σ → σ) (q : σ → Prop) (s : σ) : Prop := ∃ n, q (step^[n] s)

namespace Reaches

theorem now (h : q s) : Reaches step q s := ⟨0, h⟩

theorem next (h : Reaches step q (step s)) : Reaches step q s := by
  obtain ⟨n, hn⟩ := h
  refine ⟨n + 1, ?_⟩
  rw [Function.iterate_succ_apply]
  exact hn

theorem imp (h : Reaches step q s) (himp : ∀ s, q s → r s) : Reaches step r s := by
  obtain ⟨n, hn⟩ := h
  exact ⟨n, himp _ hn⟩

theorem trans (h : Reaches step q s) (h' : ∀ s, q s → Reaches step r s) : Reaches step r s := by
  obtain ⟨n, hn⟩ := h
  obtain ⟨m, hm⟩ := h' _ hn
  refine ⟨m + n, ?_⟩
  rw [Function.iterate_add_apply]
  exact hm

/-- **Coming closer**: a system that reaches `q`, or else `p` again at a smaller measure. -/
theorem of_decreasing (measure : σ → Nat)
    (hcloser : ∀ s, p s → Reaches step (fun s' => q s' ∨ p s' ∧ measure s' < measure s) s)
    (h : p s) : Reaches step q s := by
  induction hn : measure s using Nat.strong_induction_on generalizing s with
  | _ n ih =>
    refine (hcloser s h).trans fun s' hs' => ?_
    rcases hs' with hq | ⟨hp, hless⟩
    · exact now hq
    · rw [hn] at hless
      exact ih (measure s') hless hp rfl

/-- What is reached and not left. -/
theorem stays (h : Reaches step q s) (hstays : ∀ s, q s → q (step s)) :
    ∃ N, ∀ n, N ≤ n → q (step^[n] s) := by
  obtain ⟨N, hN⟩ := h
  refine ⟨N, fun n hn => ?_⟩
  induction n, hn using Nat.le_induction with
  | base => exact hN
  | succ n hn ih =>
    rw [Function.iterate_succ_apply']
    exact hstays _ ih

end Reaches

end LeadsTo
