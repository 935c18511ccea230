/-
  Integers as numbers of JSON: the decimal text that is written for an integer, and the integer
  that is read from it.
-/
import AccessCore.Lib.JsonParse

open JsString

namespace JsonNumber

/-- The decimal digits of `n`, the first one first. -/
def digits (n : Nat) : JsString :=
  if n = 0 then [48] else (Nat.digits 10 n).reverse.map fun d => Fin.ofNat 65536 (48 + d)

/-- The number that digits stand for. -/
def ofDigits (text : JsString) : Nat := Nat.ofDigits 10 (text.reverse.map fun u => u.val - 48)

theorem digitUnit_val {n d : Nat} (h : d ∈ Nat.digits 10 n) :
    d < 10 ∧ (Fin.ofNat 65536 (48 + d)).val = 48 + d := by
  have hlt : d < 10 := Nat.digits_lt_base (by omega) h
  exact ⟨hlt, Nat.mod_eq_of_lt (by omega)⟩

theorem isDigit_of_mem_digits {n : Nat} {u : CodeUnit} (h : u ∈ digits n) :
    Json.isDigit u = true := by
  unfold digits at h
  split_ifs at h
  · obtain rfl := List.mem_singleton.mp h
    rfl
  · obtain ⟨d, hd, rfl⟩ := List.mem_map.mp h
    obtain ⟨hlt, hval⟩ := digitUnit_val (List.mem_reverse.mp hd)
    simp only [Json.isDigit, decide_eq_true_eq, hval]
    omega

theorem ofDigits_digits (n : Nat) : ofDigits (digits n) = n := by
  unfold digits
  split_ifs with hn
  · subst hn
    rfl
  · have hback : ((Nat.digits 10 n).map fun d => (Fin.ofNat 65536 (48 + d)).val - 48) =
        Nat.digits 10 n := by
      have hid : ∀ d ∈ Nat.digits 10 n, (Fin.ofNat 65536 (48 + d)).val - 48 = d := by
        intro d hd
        obtain ⟨-, hval⟩ := digitUnit_val hd
        omega
      calc ((Nat.digits 10 n).map fun d => (Fin.ofNat 65536 (48 + d)).val - 48)
          = (Nat.digits 10 n).map id := List.map_congr_left hid
        _ = Nat.digits 10 n := List.map_id _
    rw [ofDigits, ← List.map_reverse, List.reverse_reverse, List.map_map]
    exact (congrArg (Nat.ofDigits 10) hback).trans (Nat.ofDigits_digits 10 n)

/-- There is a first digit, and it is no zero when another one follows. -/
theorem digits_head (n : Nat) :
    ∃ u rest, digits n = u :: rest ∧ (u = 48 → rest = []) := by
  unfold digits
  split_ifs with hn
  · exact ⟨48, [], rfl, fun _ => rfl⟩
  · have hne : Nat.digits 10 n ≠ [] := Nat.digits_ne_nil_iff_ne_zero.mpr hn
    have hsplit := List.dropLast_append_getLast hne
    have hlast := Nat.getLast_digit_ne_zero 10 hn
    obtain ⟨hlt, hval⟩ := digitUnit_val (List.getLast_mem hne)
    refine ⟨Fin.ofNat 65536 (48 + (Nat.digits 10 n).getLast hne),
      ((Nat.digits 10 n).dropLast.reverse).map fun d => Fin.ofNat 65536 (48 + d), ?_, ?_⟩
    · conv_lhs => rw [← hsplit]
      simp
    · intro hzero
      have h48 : 48 + (Nat.digits 10 n).getLast hne = 48 := by
        rw [← hval, hzero]
        rfl
      omega

theorem afterDigits_of_all {u : CodeUnit} {rest : JsString}
    (h : ∀ v ∈ u :: rest, Json.isDigit v = true) : Json.afterDigits (u :: rest) = some [] := by
  rw [Json.afterDigits, if_pos (h u List.mem_cons_self)]
  congr 1
  exact List.dropWhile_eq_nil_iff.mpr fun v hv => h v (List.mem_cons_of_mem _ hv)

theorem afterInteger_digits (n : Nat) : Json.afterInteger (digits n) = some [] := by
  obtain ⟨u, rest, hdigits, hzero⟩ := digits_head n
  rw [hdigits, Json.afterInteger]
  split_ifs with h48
  · rw [hzero h48]
  · exact afterDigits_of_all (hdigits ▸ fun v hv => isDigit_of_mem_digits hv)

theorem head_digits_ne (n : Nat) : (digits n).head? ≠ some 45 := by
  obtain ⟨u, rest, hdigits, -⟩ := digits_head n
  have hu : Json.isDigit u = true := isDigit_of_mem_digits (hdigits ▸ List.mem_cons_self)
  intro h
  have h45 : u = 45 := by simpa [hdigits] using h
  rw [h45] at hu
  exact absurd hu (by decide)

/-- The text of an integer. -/
def intText (n : Int) : JsString := if n < 0 then 45 :: digits n.natAbs else digits n.natAbs

/-- The integer that such a text stands for. -/
def toInt (n : JsonNumber) : Int :=
  if n.text.head? = some 45 then -(ofDigits n.text.tail) else ofDigits n.text

theorem isNumberText_intText (n : Int) : Json.isNumberText (intText n) = true := by
  have hread : ((Json.afterInteger (digits n.natAbs)).bind Json.afterFraction).bind
      Json.afterExponent = some [] := by
    rw [afterInteger_digits]
    rfl
  unfold Json.isNumberText intText
  by_cases hneg : n < 0
  · simp only [if_pos hneg, List.head?_cons, if_true, List.tail_cons, hread]
    rfl
  · simp only [if_neg hneg, if_neg (head_digits_ne n.natAbs), hread]
    rfl

theorem intText_units (n : Int) : ∀ u ∈ intText n, isNumberUnit u = true := by
  have hdigit : ∀ u ∈ digits n.natAbs, isNumberUnit u = true := by
    intro u hu
    have h := isDigit_of_mem_digits hu
    simp only [Json.isDigit, decide_eq_true_eq] at h
    simp [isNumberUnit, h]
  intro u hu
  unfold intText at hu
  split_ifs at hu
  · rcases List.mem_cons.mp hu with rfl | hu
    · decide
    · exact hdigit u hu
  · exact hdigit u hu

theorem intText_ne_nil (n : Int) : intText n ≠ [] := by
  obtain ⟨u, rest, hdigits, -⟩ := digits_head n.natAbs
  unfold intText
  split_ifs
  · exact List.cons_ne_nil _ _
  · rw [hdigits]
    exact List.cons_ne_nil _ _

def ofInt (n : Int) : JsonNumber := ⟨intText n, intText_ne_nil n, intText_units n⟩

theorem toInt_ofInt (n : Int) : (ofInt n).toInt = n := by
  unfold toInt ofInt intText
  by_cases hneg : n < 0
  · simp only [if_pos hneg, List.head?_cons, if_true, List.tail_cons, ofDigits_digits]
    omega
  · simp only [if_neg hneg, if_neg (head_digits_ne n.natAbs), ofDigits_digits]
    omega

end JsonNumber
