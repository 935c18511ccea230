/-
  Logs in commit order, and what they say about the state.

  Entries carry positions that increase strictly along the log.  What a reader at position `r`
  sees is then the part of the log `upTo` it, whatever is committed later (`upTo_append`), and the
  part between two positions is a `window`; windows that meet make a window (`window_append`), and a
  window that ends where nothing was committed in between may end there as well.

  A log of changes says which keys are present: `replay` adds and removes them in order.  A key
  that has disappeared between two points of the log was removed by an entry in between
  (`exists_removal`).
-/
import Mathlib

namespace AccessCore

namespace CommitLog

variable {ε κ : Type} {position : ε → Nat} {log later : List ε} {e : ε} {r low mid high : Nat}

/-- Positions increase along the log. -/
def Ordered (position : ε → Nat) (log : List ε) : Prop :=
  log.Pairwise fun a b => position a < position b

theorem Ordered.nil : Ordered position ([] : List ε) := List.Pairwise.nil

theorem Ordered.append_singleton (h : Ordered position log)
    (hlast : ∀ a ∈ log, position a < position e) : Ordered position (log ++ [e]) := by
  refine List.pairwise_append.mpr ⟨h, List.pairwise_singleton _ _, fun a ha b hb => ?_⟩
  rw [List.mem_singleton.mp hb]
  exact hlast a ha

theorem Ordered.filter (h : Ordered position log) (p : ε → Bool) :
    Ordered position (log.filter p) :=
  List.Pairwise.filter p h

/-- An entry is below a bound exactly if more entries are than stand before it. -/
theorem Ordered.lt_iff_length {front rest : List ε} (h : Ordered position (front ++ e :: rest))
    (bound : Nat) : position e < bound ↔
      front.length < ((front ++ e :: rest).filter fun a => position a < bound).length := by
  obtain ⟨-, hrest, hbefore⟩ := List.pairwise_append.mp h
  have hafter := (List.pairwise_cons.mp hrest).1
  rw [List.filter_append, List.length_append]
  constructor
  · intro hlt
    have hfront : (front.filter fun a => position a < bound) = front := by
      refine List.filter_eq_self.mpr fun a ha => ?_
      have hle := hbefore a ha e List.mem_cons_self
      simp only [decide_eq_true_eq]
      omega
    rw [hfront, List.filter_cons, if_pos (by simpa using hlt), List.length_cons]
    omega
  · intro hlength
    by_contra hnot
    have hempty : ((e :: rest).filter fun a => position a < bound) = [] := by
      refine List.filter_eq_nil_iff.mpr fun a ha => ?_
      simp only [decide_eq_true_eq]
      rcases List.mem_cons.mp ha with rfl | ha
      · exact hnot
      · have hlt := hafter a ha
        omega
    have hle := List.length_filter_le (fun a => decide (position a < bound)) front
    rw [hempty, List.length_nil] at hlength
    omega

/-! ## Parts of a log -/

/-- The entries that a reader at `r` sees. -/
def upTo (position : ε → Nat) (r : Nat) (log : List ε) : List ε :=
  log.filter fun e => position e ≤ r

theorem upTo_eq_self (h : ∀ e ∈ log, position e ≤ r) : upTo position r log = log :=
  List.filter_eq_self.mpr fun e he => by simpa using h e he

theorem upTo_eq_nil (h : ∀ e ∈ log, r < position e) : upTo position r log = [] :=
  List.filter_eq_nil_iff.mpr fun e he => by simpa using h e he

/-- Later commits do not change what a reader sees. -/
theorem upTo_append (hlog : ∀ e ∈ log, position e ≤ r) (hlater : ∀ e ∈ later, r < position e) :
    upTo position r (log ++ later) = log := by
  unfold upTo
  rw [List.filter_append]
  have hseen := upTo_eq_self hlog
  have hunseen := upTo_eq_nil hlater
  unfold upTo at hseen hunseen
  rw [hseen, hunseen, List.append_nil]

/-- The entries above `low`, up to `high`. -/
def window (position : ε → Nat) (low high : Nat) (log : List ε) : List ε :=
  log.filter fun e => low < position e && position e ≤ high

theorem mem_window : e ∈ window position low high log ↔
    e ∈ log ∧ low < position e ∧ position e ≤ high := by
  simp [window]

theorem window_eq_nil (h : ∀ e ∈ log, low < position e → high < position e) :
    window position low high log = [] :=
  List.filter_eq_nil_iff.mpr fun e he => by simpa using h e he

theorem window_self : window position low low log = [] :=
  window_eq_nil fun _ _ h => h

/-- **Windows that meet make a window.** -/
theorem window_append (h : Ordered position log) (hlow : low ≤ mid) (hhigh : mid ≤ high) :
    window position low mid log ++ window position mid high log =
      window position low high log := by
  induction log with
  | nil => rfl
  | cons e log ih =>
    obtain ⟨he, hlog⟩ := List.pairwise_cons.mp h
    unfold window at ih ⊢
    rw [List.filter_cons, List.filter_cons, List.filter_cons]
    by_cases hfirst : position e ≤ mid
    · have hnot : ¬ mid < position e := by omega
      have hle : position e ≤ high := by omega
      simp only [hfirst, hnot, hle, decide_true, decide_false, Bool.and_true, Bool.false_eq_true,
        if_false]
      split_ifs with hin
      · rw [List.cons_append, ih hlog]
      · exact ih hlog
    · -- Everything from here on is above the middle.
      have habove : ∀ a ∈ log, mid < position a := by
        intro a ha
        have hlt := he a ha
        omega
      have hempty : (log.filter fun a => low < position a && position a ≤ mid) = [] := by
        refine List.filter_eq_nil_iff.mpr fun a ha => ?_
        have hlt := habove a ha
        simp only [Bool.and_eq_true, decide_eq_true_eq, not_and]
        omega
      have hmid : mid < position e := by omega
      have hlowe : low < position e := by omega
      simp only [hfirst, hmid, hlowe, decide_true, decide_false, Bool.and_false, Bool.true_and,
        Bool.false_eq_true, if_false]
      rw [hempty, List.nil_append]
      have hsame : (log.filter fun a => mid < position a && position a ≤ high) =
          log.filter fun a => low < position a && position a ≤ high := by
        refine List.filter_congr fun a ha => ?_
        have hlt := habove a ha
        have hlowa : low < position a := by omega
        simp [hlt, hlowa]
      rw [hsame]

/-- Later commits do not change a window. -/
theorem window_append_later (hlater : ∀ e ∈ later, high < position e) :
    window position low high (log ++ later) = window position low high log := by
  unfold window
  rw [List.filter_append]
  have hnone : (later.filter fun e => low < position e && position e ≤ high) = [] := by
    refine List.filter_eq_nil_iff.mpr fun e he => ?_
    have hlt := hlater e he
    simp only [Bool.and_eq_true, decide_eq_true_eq, not_and]
    omega
  rw [hnone, List.append_nil]

/-- The first entry of a window is a window, and so is the rest. -/
theorem window_cons (h : Ordered position log)
    (hwindow : window position low high log = e :: later) :
    window position low (position e) log = [e] ∧
      window position (position e) high log = later ∧
      low < position e ∧ position e ≤ high := by
  obtain ⟨-, hlow, hhigh⟩ := mem_window.mp (hwindow ▸ List.mem_cons_self .. :
    e ∈ window position low high log)
  have hordered : Ordered position (e :: later) := hwindow ▸ h.filter _
  have hafter := (List.pairwise_cons.mp hordered).1
  have hsplit := window_append h hlow.le hhigh
  -- Nothing of the rest is in the first part, so the first part is the entry alone.
  have hfirst : ∀ a ∈ window position low (position e) log, a = e := by
    intro a ha
    obtain ⟨hmem, hlowa, hle⟩ := mem_window.mp ha
    have hin : a ∈ e :: later := by
      rw [← hwindow]
      exact mem_window.mpr ⟨hmem, hlowa, le_trans hle hhigh⟩
    rcases List.mem_cons.mp hin with rfl | hin
    · rfl
    · have hlt := hafter a hin
      omega
  cases hpart : window position low (position e) log with
  | nil =>
    exfalso
    have hin : e ∈ window position (position e) high log := by
      rw [hpart, List.nil_append, hwindow] at hsplit
      rw [hsplit]
      exact List.mem_cons_self ..
    have hlt := (mem_window.mp hin).2.1
    omega
  | cons a rest =>
    rw [hpart] at hfirst
    obtain rfl := hfirst a (List.mem_cons_self ..)
    rw [hpart, hwindow, List.cons_append, List.cons.injEq] at hsplit
    have hrest : rest = [] := by
      cases rest with
      | nil => rfl
      | cons b rest =>
        have hb := hfirst b (by simp)
        have hinb : b ∈ later := by
          rw [← hsplit.2]
          exact List.mem_append_left _ (List.mem_cons_self ..)
        have hlt := hafter b hinb
        rw [hb] at hlt
        omega
    subst hrest
    exact ⟨rfl, hsplit.2, hlow, hhigh⟩

/-- The first entries of a window are a window. -/
theorem take_window (h : Ordered position log) (hle : low ≤ high) (n : Nat) :
    ∃ top, low ≤ top ∧ top ≤ high ∧
      (window position low high log).take n = window position low top log := by
  induction n generalizing low with
  | zero => exact ⟨low, le_refl _, hle, window_self.symm⟩
  | succ n ih =>
    cases hwindow : window position low high log with
    | nil => exact ⟨high, hle, le_refl _, by rw [List.take_nil, hwindow]⟩
    | cons e later =>
      obtain ⟨hfirst, hlater, hlow, hhigh⟩ := window_cons h hwindow
      obtain ⟨top, htop, htophigh, htake⟩ := ih hhigh
      refine ⟨top, by omega, htophigh, ?_⟩
      rw [List.take_succ_cons, ← hlater, htake, ← window_append h hlow.le htop, hfirst]
      rfl

/-! ## Replaying changes -/

section Replay

variable {key : ε → κ} {adds : ε → Bool}

def applyChange (key : ε → κ) (adds : ε → Bool) (keys : Set κ) (e : ε) : Set κ :=
  if adds e then insert (key e) keys else keys \ {key e}

/-- The keys that are present after the changes of a log. -/
def replay (key : ε → κ) (adds : ε → Bool) (log : List ε) : Set κ :=
  log.foldl (applyChange key adds) ∅

theorem replay_append_singleton :
    replay key adds (log ++ [e]) = applyChange key adds (replay key adds log) e := by
  unfold replay
  rw [List.foldl_append]
  rfl

/-- The changes of some of the keys say what becomes of those. -/
theorem replay_filter (p : κ → Bool) :
    replay key adds (log.filter fun e => p (key e)) = {k | k ∈ replay key adds log ∧ p k} := by
  induction log using List.reverseRecOn with
  | nil =>
    ext k
    constructor
    · intro hk
      cases hk
    · intro hk
      cases hk.1
  | append_singleton log e ih =>
    rw [List.filter_append, replay_append_singleton]
    by_cases hp : p (key e) = true
    · have hlast : ([e].filter fun e => p (key e)) = [e] := by simp [hp]
      rw [hlast, replay_append_singleton, ih]
      unfold applyChange
      ext k
      split_ifs
      · constructor
        · rintro (rfl | ⟨hk, hpk⟩)
          · exact ⟨Set.mem_insert _ _, hp⟩
          · exact ⟨Set.mem_insert_of_mem _ hk, hpk⟩
        · rintro ⟨rfl | hk, hpk⟩
          · exact Set.mem_insert _ _
          · exact Set.mem_insert_of_mem _ ⟨hk, hpk⟩
      · constructor
        · rintro ⟨⟨hk, hpk⟩, hne⟩
          exact ⟨⟨hk, hne⟩, hpk⟩
        · rintro ⟨⟨hk, hne⟩, hpk⟩
          exact ⟨⟨hk, hpk⟩, hne⟩
    · -- A change of another key.
      have hlast : ([e].filter fun e => p (key e)) = [] := by simp [hp]
      rw [hlast, List.append_nil, ih]
      have hother : ∀ k, p k = true → k ≠ key e := by
        rintro k hpk rfl
        exact hp hpk
      unfold applyChange
      ext k
      split_ifs
      · constructor
        · rintro ⟨hk, hpk⟩
          exact ⟨Set.mem_insert_of_mem _ hk, hpk⟩
        · rintro ⟨rfl | hk, hpk⟩
          · exact absurd hpk hp
          · exact ⟨hk, hpk⟩
      · constructor
        · rintro ⟨hk, hpk⟩
          exact ⟨⟨hk, hother k hpk⟩, hpk⟩
        · rintro ⟨⟨hk, hne⟩, hpk⟩
          exact ⟨hk, hpk⟩

/-- What has disappeared was removed in between. -/
theorem exists_removal {k : κ} (hbefore : k ∈ replay key adds log)
    (hafter : k ∉ replay key adds (log ++ later)) : ∃ e ∈ later, adds e = false ∧ key e = k := by
  induction later using List.reverseRecOn with
  | nil =>
    rw [List.append_nil] at hafter
    exact absurd hbefore hafter
  | append_singleton later e ih =>
    rw [← List.append_assoc, replay_append_singleton] at hafter
    by_cases hthere : k ∈ replay key adds (log ++ later)
    · -- The last entry removed it.
      unfold applyChange at hafter
      split_ifs at hafter with hadds
      · exact absurd (Set.mem_insert_of_mem _ hthere) hafter
      · refine ⟨e, List.mem_append_right _ (List.mem_singleton.mpr rfl), by simpa using hadds, ?_⟩
        by_contra hne
        exact hafter ⟨hthere, fun hk => hne hk.symm⟩
    · obtain ⟨e', he', hremoves⟩ := ih hthere
      exact ⟨e', List.mem_append_left _ he', hremoves⟩

end Replay

end CommitLog

end AccessCore
