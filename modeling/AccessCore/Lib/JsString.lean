/-
  Strings as lists of UTF-16 code units, and how JSON writes them.

  A code unit may be half of a surrogate pair; a half on its own is a lone surrogate.  `quote`
  escapes quotes, backslashes, controls and lone surrogates and leaves everything else as it is,
  so its text is well formed (`wellFormed_quote`), has no control unit, and is read back by
  `unquote` up to the closing quote (`unquote_quoteBody`).  From the reader, and not from a case
  analysis on two strings, comes that a quoted string determines the string and what follows it
  (`quote_inj`).
-/
import Mathlib

/-- A UTF-16 code unit. -/
abbrev CodeUnit := Fin 65536

/-- So that a code unit can be written as a number. -/
instance neZero_utf16 : NeZero 65536 := ⟨by decide⟩

/-- A string of code units. -/
abbrev JsString := List CodeUnit

namespace JsString

/-- An ASCII text. -/
def ascii (text : String) : JsString := text.toList.map fun c => Fin.ofNat 65536 c.toNat

/-! ## Surrogates -/

def isHigh (u : CodeUnit) : Bool := decide (0xD800 ≤ u.val ∧ u.val ≤ 0xDBFF)

def isLow (u : CodeUnit) : Bool := decide (0xDC00 ≤ u.val ∧ u.val ≤ 0xDFFF)

/-- No lone surrogate. -/
def wellFormed : JsString → Bool
  | [] => true
  | [u] => !isHigh u && !isLow u
  | u :: v :: rest =>
    if isHigh u then isLow v && wellFormed rest else !isLow u && wellFormed (v :: rest)

/-- The string as an encoder to UTF-8 reads it: every lone surrogate becomes U+FFFD. -/
def toWellFormed : JsString → JsString
  | [] => []
  | [u] => if isHigh u || isLow u then [0xFFFD] else [u]
  | u :: v :: rest =>
    if isHigh u && isLow v then u :: v :: toWellFormed rest
    else (if isHigh u || isLow u then 0xFFFD else u) :: toWellFormed (v :: rest)

/-- A string without lone surrogates is left as it is. -/
theorem toWellFormed_eq {s : JsString} (h : wellFormed s = true) : toWellFormed s = s := by
  induction s using wellFormed.induct with
  | case1 => rfl
  | case2 u =>
    have hu : isHigh u = false ∧ isLow u = false := by simpa [wellFormed] using h
    simp [toWellFormed, hu.1, hu.2]
  | case3 u v rest hhigh ih =>
    have hv : isLow v = true ∧ wellFormed rest = true := by simpa [wellFormed, hhigh] using h
    simp [toWellFormed, hhigh, hv.1, ih hv.2]
  | case4 u v rest hhigh ih =>
    have hu : isLow u = false ∧ wellFormed (v :: rest) = true := by
      simpa [wellFormed, hhigh] using h
    simp [toWellFormed, hhigh, hu.1, ih hu.2]

/-- A unit that is no surrogate keeps the rest as it is. -/
theorem wellFormed_cons {u : CodeUnit} {s : JsString} (hhigh : isHigh u = false)
    (hlow : isLow u = false) : wellFormed (u :: s) = wellFormed s := by
  cases s with
  | nil => simp [wellFormed, hhigh, hlow]
  | cons v s => simp [wellFormed, hhigh, hlow]

theorem wellFormed_append {s t : JsString} (hs : wellFormed s = true) (ht : wellFormed t = true) :
    wellFormed (s ++ t) = true := by
  induction s using wellFormed.induct with
  | case1 => exact ht
  | case2 u =>
    have hu : isHigh u = false ∧ isLow u = false := by simpa [wellFormed] using hs
    rw [List.singleton_append, wellFormed_cons hu.1 hu.2]
    exact ht
  | case3 u v rest hhigh ih =>
    have hv : isLow v = true ∧ wellFormed rest = true := by simpa [wellFormed, hhigh] using hs
    simp [wellFormed, hhigh, hv.1, ih hv.2]
  | case4 u v rest hhigh ih =>
    have hu : isLow u = false ∧ wellFormed (v :: rest) = true := by
      simpa [wellFormed, hhigh] using hs
    have hrest : wellFormed (v :: (rest ++ t)) = true := ih hu.2
    simp [wellFormed, hhigh, hu.1, hrest]

/-- Units below the surrogates. -/
def Plain (s : JsString) : Prop := ∀ u ∈ s, u.val < 0xD800

theorem wellFormed_of_plain {s : JsString} (h : Plain s) : wellFormed s = true := by
  induction s with
  | nil => rfl
  | cons u s ih =>
    have hu : u.val < 0xD800 := h u List.mem_cons_self
    have hhigh : isHigh u = false := by
      simp only [isHigh, decide_eq_false_iff_not]
      omega
    have hlow : isLow u = false := by
      simp only [isLow, decide_eq_false_iff_not]
      omega
    rw [wellFormed_cons hhigh hlow]
    exact ih fun v hv => h v (List.mem_cons_of_mem _ hv)

/-! ## Quoting -/

/-- The lower-case hexadecimal digit of `d`. -/
def hexDigit (d : Nat) : CodeUnit := if d < 10 then Fin.ofNat 65536 (48 + d) else
  Fin.ofNat 65536 (87 + d)

def hexValue (u : CodeUnit) : Nat := if u.val < 58 then u.val - 48 else u.val - 87

theorem hexDigit_val {d : Nat} (h : d < 16) :
    (hexDigit d).val = if d < 10 then 48 + d else 87 + d := by
  unfold hexDigit
  split_ifs with hd
  · exact Nat.mod_eq_of_lt (by omega)
  · exact Nat.mod_eq_of_lt (by omega)

theorem hexValue_hexDigit {d : Nat} (h : d < 16) : hexValue (hexDigit d) = d := by
  have hval := hexDigit_val h
  unfold hexValue
  split_ifs at hval ⊢ <;> omega

/-- The escape `\uXXXX`. -/
def unicodeEscape (u : CodeUnit) : JsString :=
  [92, 117, hexDigit (u.val / 4096), hexDigit (u.val / 256 % 16), hexDigit (u.val / 16 % 16),
    hexDigit (u.val % 16)]

/-- How one unit is written when it is not the first half of a pair. -/
def quoteUnit (u : CodeUnit) : JsString :=
  if u = 8 then [92, 98]
  else if u = 9 then [92, 116]
  else if u = 10 then [92, 110]
  else if u = 12 then [92, 102]
  else if u = 13 then [92, 114]
  else if u = 34 then [92, 34]
  else if u = 92 then [92, 92]
  else if u.val < 32 ∨ isHigh u = true ∨ isLow u = true then unicodeEscape u
  else [u]

/-- What stands between the quotes. -/
def quoteBody : JsString → JsString
  | [] => []
  | [u] => quoteUnit u
  | u :: v :: rest =>
    if isHigh u && isLow v then u :: v :: quoteBody rest else quoteUnit u ++ quoteBody (v :: rest)

/-- `JSON.stringify` of a string. -/
def quote (s : JsString) : JsString := 34 :: (quoteBody s ++ [34])

/-- What a one-letter escape stands for. -/
def unescape (u : CodeUnit) : CodeUnit :=
  if u = 98 then 8
  else if u = 116 then 9
  else if u = 110 then 10
  else if u = 102 then 12
  else if u = 114 then 13
  else u

/-- Read up to the closing quote: the string and what follows it. -/
def unquote : JsString → Option (JsString × JsString)
  | [] => none
  | 34 :: rest => some ([], rest)
  | 92 :: 117 :: a :: b :: c :: d :: rest =>
    (unquote rest).map fun r =>
      (Fin.ofNat 65536 (4096 * hexValue a + 256 * hexValue b + 16 * hexValue c + hexValue d) :: r.1,
        r.2)
  | 92 :: u :: rest => (unquote rest).map fun r => (unescape u :: r.1, r.2)
  | u :: rest => (unquote rest).map fun r => (u :: r.1, r.2)

theorem unquote_raw {u : CodeUnit} (hquote : u ≠ 34) (hslash : u ≠ 92) (rest : JsString) :
    unquote (u :: rest) = (unquote rest).map fun r => (u :: r.1, r.2) := by
  rw [unquote]
  · exact hquote
  · intro a b c d r h
    exact absurd h hslash
  · intro v r h
    exact absurd h hslash

theorem unquote_unicodeEscape (u : CodeUnit) (rest : JsString) :
    unquote (unicodeEscape u ++ rest) = (unquote rest).map fun r => (u :: r.1, r.2) := by
  have hu : u.val < 65536 := u.isLt
  have ha : hexValue (hexDigit (u.val / 4096)) = u.val / 4096 := hexValue_hexDigit (by omega)
  have hb : hexValue (hexDigit (u.val / 256 % 16)) = u.val / 256 % 16 :=
    hexValue_hexDigit (by omega)
  have hc : hexValue (hexDigit (u.val / 16 % 16)) = u.val / 16 % 16 := hexValue_hexDigit (by omega)
  have hd : hexValue (hexDigit (u.val % 16)) = u.val % 16 := hexValue_hexDigit (by omega)
  have hsum : 4096 * (u.val / 4096) + 256 * (u.val / 256 % 16) + 16 * (u.val / 16 % 16) +
      u.val % 16 = u.val := by omega
  have hback : Fin.ofNat 65536 u.val = u := Fin.ext (Nat.mod_eq_of_lt hu)
  simp only [unicodeEscape, List.cons_append, List.nil_append, unquote, ha, hb, hc, hd, hsum, hback]

/-- A written unit is read back. -/
theorem unquote_quoteUnit (u : CodeUnit) (rest : JsString) :
    unquote (quoteUnit u ++ rest) = (unquote rest).map fun r => (u :: r.1, r.2) := by
  unfold quoteUnit
  split_ifs with h8 h9 h10 h12 h13 h34 h92 hescape
  · subst h8
    rfl
  · subst h9
    rfl
  · subst h10
    rfl
  · subst h12
    rfl
  · subst h13
    rfl
  · subst h34
    rfl
  · subst h92
    rfl
  · exact unquote_unicodeEscape u rest
  · exact unquote_raw h34 h92 rest

/-- The reader inverts the writer and stops at the closing quote. -/
theorem unquote_quoteBody (s rest : JsString) :
    unquote (quoteBody s ++ 34 :: rest) = some (s, rest) := by
  induction s using quoteBody.induct with
  | case1 => rfl
  | case2 u =>
    rw [quoteBody, unquote_quoteUnit]
    rfl
  | case3 u v s hpair ih =>
    obtain ⟨hu, hv⟩ : isHigh u = true ∧ isLow v = true := by simpa using hpair
    have hu34 : u ≠ 34 := by rintro rfl; exact absurd hu (by decide)
    have hu92 : u ≠ 92 := by rintro rfl; exact absurd hu (by decide)
    have hv34 : v ≠ 34 := by rintro rfl; exact absurd hv (by decide)
    have hv92 : v ≠ 92 := by rintro rfl; exact absurd hv (by decide)
    rw [quoteBody, if_pos hpair, List.cons_append, List.cons_append, unquote_raw hu34 hu92,
      unquote_raw hv34 hv92, ih]
    rfl
  | case4 u v s hpair ih =>
    rw [quoteBody, if_neg hpair, List.append_assoc, unquote_quoteUnit, ih]
    rfl

/-- A quoted string determines the string and what follows it. -/
theorem quote_inj {s t r r' : JsString} (h : quote s ++ r = quote t ++ r') : s = t ∧ r = r' := by
  have hbody : quoteBody s ++ 34 :: r = quoteBody t ++ 34 :: r' := by simpa [quote] using h
  have hread : some (s, r) = some (t, r') := by
    rw [← unquote_quoteBody s r, ← unquote_quoteBody t r', hbody]
  exact ⟨congrArg Prod.fst (Option.some.inj hread), congrArg Prod.snd (Option.some.inj hread)⟩

/-! ## What a quoted string is made of -/

theorem hexDigit_bounds {d : Nat} (h : d < 16) :
    32 ≤ (hexDigit d).val ∧ (hexDigit d).val < 0xD800 := by
  have hval := hexDigit_val h
  split_ifs at hval <;> omega

theorem mem_unicodeEscape {u v : CodeUnit} (h : v ∈ unicodeEscape u) :
    32 ≤ v.val ∧ v.val < 0xD800 := by
  have hu : u.val < 65536 := u.isLt
  simp only [unicodeEscape, List.mem_cons, List.not_mem_nil, or_false] at h
  rcases h with rfl | rfl | rfl | rfl | rfl | rfl
  · decide
  · decide
  all_goals exact hexDigit_bounds (by omega)

/-- A written unit has no control, and no surrogate. -/
theorem mem_quoteUnit {u v : CodeUnit} (h : v ∈ quoteUnit u) :
    32 ≤ v.val ∧ (isHigh v = false ∧ isLow v = false) := by
  have plain : v.val < 0xD800 → isHigh v = false ∧ isLow v = false := by
    intro hv
    simp only [isHigh, isLow, decide_eq_false_iff_not]
    omega
  have two : ∀ {a b : CodeUnit}, v ∈ [a, b] → (32 ≤ a.val ∧ a.val < 0xD800) →
      (32 ≤ b.val ∧ b.val < 0xD800) → 32 ≤ v.val ∧ v.val < 0xD800 := by
    intro a b hv ha hb
    rcases List.mem_pair.mp hv with rfl | rfl
    · exact ha
    · exact hb
  have bounded : (32 ≤ v.val ∧ v.val < 0xD800) →
      32 ≤ v.val ∧ (isHigh v = false ∧ isLow v = false) := fun hv => ⟨hv.1, plain hv.2⟩
  unfold quoteUnit at h
  split_ifs at h with h8 h9 h10 h12 h13 h34 h92 hescape
  iterate 7 exact bounded (two h (by decide) (by decide))
  · exact bounded (mem_unicodeEscape h)
  · have hvu : v = u := List.mem_singleton.mp h
    subst hvu
    have hnot : ¬ v.val < 32 ∧ ¬ isHigh v = true ∧ ¬ isLow v = true := by
      simpa only [not_or] using hescape
    refine ⟨by omega, ?_, ?_⟩
    · simpa using hnot.2.1
    · simpa using hnot.2.2

theorem wellFormed_quoteUnit (u : CodeUnit) : wellFormed (quoteUnit u) = true := by
  have all : ∀ s : JsString, (∀ v ∈ s, isHigh v = false ∧ isLow v = false) →
      wellFormed s = true := by
    intro s hs
    induction s with
    | nil => rfl
    | cons v s ih =>
      obtain ⟨hhigh, hlow⟩ := hs v List.mem_cons_self
      rw [wellFormed_cons hhigh hlow]
      exact ih fun w hw => hs w (List.mem_cons_of_mem _ hw)
  exact all _ fun v hv => (mem_quoteUnit hv).2

theorem wellFormed_quoteBody (s : JsString) : wellFormed (quoteBody s) = true := by
  induction s using quoteBody.induct with
  | case1 => rfl
  | case2 u => exact wellFormed_quoteUnit u
  | case3 u v s hpair ih =>
    obtain ⟨hu, hv⟩ : isHigh u = true ∧ isLow v = true := by simpa using hpair
    simp [quoteBody, wellFormed, hu, hv, ih]
  | case4 u v s hpair ih =>
    rw [quoteBody, if_neg hpair]
    exact wellFormed_append (wellFormed_quoteUnit u) ih

/-- What JSON writes has no lone surrogate, whatever the string. -/
theorem wellFormed_quote (s : JsString) : wellFormed (quote s) = true := by
  have hbody : wellFormed (quoteBody s ++ [34]) = true :=
    wellFormed_append (wellFormed_quoteBody s) (by decide)
  rw [quote, wellFormed_cons (by decide) (by decide)]
  exact hbody

theorem mem_quoteBody {s : JsString} {v : CodeUnit} (h : v ∈ quoteBody s) : 32 ≤ v.val := by
  induction s using quoteBody.induct with
  | case1 => simp [quoteBody] at h
  | case2 u => exact (mem_quoteUnit h).1
  | case3 u w s hpair ih =>
    obtain ⟨hu, hw⟩ : isHigh u = true ∧ isLow w = true := by simpa using hpair
    simp only [isHigh, decide_eq_true_eq] at hu
    simp only [isLow, decide_eq_true_eq] at hw
    rw [quoteBody, if_pos hpair] at h
    simp only [List.mem_cons] at h
    rcases h with rfl | rfl | h
    · omega
    · omega
    · exact ih h
  | case4 u w s hpair ih =>
    rw [quoteBody, if_neg hpair] at h
    rcases List.mem_append.mp h with h | h
    · exact (mem_quoteUnit h).1
    · exact ih h

/-- A quoted string has no control unit, so no line break. -/
theorem mem_quote {s : JsString} {v : CodeUnit} (h : v ∈ quote s) : 32 ≤ v.val := by
  simp only [quote, List.mem_cons, List.mem_append, List.not_mem_nil, or_false] at h
  rcases h with rfl | h | rfl
  · decide
  · exact mem_quoteBody h
  · decide

end JsString
