/-
  Numbers written in place value, most significant digit first, and their leading bits.

  `placeValue b ds` reads a list of digits.  Everything below `b ^ n` has a text of `n` digits
  (`exists_digits`), and shifting digits of `k` bits in from the right reads them in base `2 ^ k`
  (`foldl_shiftLeft_or`).

  A mask of the leading `n - k` of `n` bits compares exactly what a shift to the right by `k`
  leaves (`and_mask_eq_iff`), at both ends too: `k = n` compares nothing, `k = 0` everything.
-/
import Mathlib

namespace AccessCore

namespace PlaceValue

def placeValue (b : Nat) (ds : List Nat) : Nat := ds.foldl (fun v d => v * b + d) 0

theorem placeValue_append_singleton (b : Nat) (ds : List Nat) (d : Nat) :
    placeValue b (ds ++ [d]) = placeValue b ds * b + d := by
  unfold placeValue
  rw [List.foldl_append]
  rfl

/-- Mathlib's reading, which takes the least significant digit first. -/
theorem placeValue_eq_ofDigits (b : Nat) (ds : List Nat) :
    placeValue b ds = Nat.ofDigits b ds.reverse := by
  induction ds using List.reverseRecOn with
  | nil => rfl
  | append_singleton ds d ih =>
    rw [placeValue_append_singleton, List.reverse_concat, Nat.ofDigits_cons, ih, Nat.mul_comm,
      Nat.add_comm]

theorem placeValue_lt {b : Nat} (hb : 1 < b) {ds : List Nat} (h : ∀ d ∈ ds, d < b) :
    placeValue b ds < b ^ ds.length := by
  have hreverse : ∀ d ∈ ds.reverse, d < b := fun d hd => h d (List.mem_reverse.mp hd)
  have hlt := Nat.ofDigits_lt_base_pow_length hb hreverse
  rw [List.length_reverse] at hlt
  rw [placeValue_eq_ofDigits]
  exact hlt

/-- Every number below `b ^ n` has `n` digits. -/
theorem exists_digits {b : Nat} (hb : 0 < b) (n : Nat) :
    ∀ v, v < b ^ n → ∃ ds : List Nat, ds.length = n ∧ (∀ d ∈ ds, d < b) ∧ placeValue b ds = v := by
  induction n with
  | zero =>
    intro v hv
    rw [Nat.pow_zero] at hv
    have hzero : v = 0 := by omega
    exact ⟨[], rfl, fun d hd => absurd hd List.not_mem_nil, hzero.symm⟩
  | succ n ih =>
    intro v hv
    have hquotient : v / b < b ^ n := by
      rw [Nat.div_lt_iff_lt_mul hb]
      exact hv
    obtain ⟨ds, hlength, hdigits, hvalue⟩ := ih (v / b) hquotient
    refine ⟨ds ++ [v % b], by simp [hlength], ?_, ?_⟩
    · intro d hd
      rcases List.mem_append.mp hd with hd | hd
      · exact hdigits d hd
      · rw [List.mem_singleton.mp hd]
        exact Nat.mod_lt v hb
    · rw [placeValue_append_singleton, hvalue, Nat.mul_comm]
      exact Nat.div_add_mod v b

/-- Shifting in digits of `k` bits reads them in base `2 ^ k`. -/
theorem foldl_shiftLeft_or {k : Nat} {ds : List Nat} (h : ∀ d ∈ ds, d < 2 ^ k) :
    ds.foldl (fun v d => (v <<< k) ||| d) 0 = placeValue (2 ^ k) ds := by
  induction ds using List.reverseRecOn with
  | nil => rfl
  | append_singleton ds d ih =>
    have hds : ∀ e ∈ ds, e < 2 ^ k := fun e he => h e (List.mem_append_left _ he)
    have hd : d < 2 ^ k := h d (List.mem_append_right _ (List.mem_singleton.mpr rfl))
    rw [List.foldl_append, List.foldl_cons, List.foldl_nil, ih hds, placeValue_append_singleton,
      ← Nat.shiftLeft_add_eq_or_of_lt hd, Nat.shiftLeft_eq]

/-! ## Leading bits -/

/-- The bits of a mask of the leading bits. -/
theorem testBit_mask (n k i : Nat) :
    ((2 ^ n - 1) ^^^ (2 ^ k - 1)).testBit i = (decide (i < n) ^^ decide (i < k)) := by
  rw [Nat.testBit_xor, Nat.testBit_two_pow_sub_one, Nat.testBit_two_pow_sub_one]

/-- **A mask of the leading bits compares what a shift leaves.** -/
theorem and_mask_eq_iff {n k a b : Nat} (hk : k ≤ n) (ha : a < 2 ^ n) (hb : b < 2 ^ n) :
    (a &&& ((2 ^ n - 1) ^^^ (2 ^ k - 1)) = b &&& ((2 ^ n - 1) ^^^ (2 ^ k - 1))) ↔
      a >>> k = b >>> k := by
  constructor
  · intro h
    refine Nat.eq_of_testBit_eq fun i => ?_
    rw [Nat.testBit_shiftRight, Nat.testBit_shiftRight]
    by_cases hi : k + i < n
    · -- A bit that the mask keeps.
      have hbit := congrArg (fun v => v.testBit (k + i)) h
      have hnot : ¬ k + i < k := by omega
      simpa [Nat.testBit_and, testBit_mask, hi, hnot] using hbit
    · have hle : 2 ^ n ≤ 2 ^ (k + i) := Nat.pow_le_pow_right (by omega) (by omega)
      rw [Nat.testBit_lt_two_pow (by omega), Nat.testBit_lt_two_pow (by omega)]
  · intro h
    refine Nat.eq_of_testBit_eq fun i => ?_
    rw [Nat.testBit_and, Nat.testBit_and, testBit_mask]
    by_cases hi : i < k
    · -- A bit that the mask drops.
      have hn : i < n := by omega
      simp [hi, hn]
    · have hbit := congrArg (fun v => v.testBit (i - k)) h
      have hadd : k + (i - k) = i := by omega
      simp only [Nat.testBit_shiftRight, hadd] at hbit
      rw [hbit]

end PlaceValue

end AccessCore
