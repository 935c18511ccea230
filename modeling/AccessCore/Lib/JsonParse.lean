/-
  Reading JSON: `JSON.parse`.

  The reader is recursive descent over the units of the text, with fuel that bounds the number of
  nested calls.  A call never needs more fuel than the text it consumes is long (`Enough`), so
  `parse`, which starts with the length of the whole text, never fails for want of fuel
  (`parse_eq_some_iff`).

  What `JSON.stringify` writes is read back (`parse_stringify`): a value whose numbers are numbers
  of JSON and whose objects repeat no key.  A number is kept as it is written, and where an object
  repeats a key its last value counts.
-/
import AccessCore.Lib.Json

open JsString

namespace Json

/-! ## Tokens -/

def isWhitespaceUnit (u : CodeUnit) : Bool := u == 32 || u == 9 || u == 10 || u == 13

def skipWhitespace (text : JsString) : JsString := text.dropWhile isWhitespaceUnit

/-- The rest of a literal, of which the first unit has been read. -/
def parseLiteral (word : JsString) (value : Json) (text : JsString) : Option (Json × JsString) :=
  if word <+: text then some (value, text.drop word.length) else none

def isDigit (u : CodeUnit) : Bool := decide (48 ≤ u.val ∧ u.val ≤ 57)

/-- What follows one or more digits. -/
def afterDigits : JsString → Option JsString
  | [] => none
  | u :: rest => if isDigit u then some (rest.dropWhile isDigit) else none

/-- What follows the digits before the point: `0`, or digits that do not start with it. -/
def afterInteger : JsString → Option JsString
  | [] => none
  | u :: rest => if u = 48 then some rest else afterDigits (u :: rest)

def afterFraction : JsString → Option JsString
  | [] => some []
  | u :: rest => if u = 46 then afterDigits rest else some (u :: rest)

def dropSign : JsString → JsString
  | [] => []
  | u :: rest => if u = 43 ∨ u = 45 then rest else u :: rest

def afterExponent : JsString → Option JsString
  | [] => some []
  | u :: rest => if u = 101 then afterDigits (dropSign rest) else some (u :: rest)

/-- A number of JSON, with `e` before its exponent. -/
def isNumberText (text : JsString) : Bool :=
  let unsigned := if text.head? = some 45 then text.tail else text
  (((afterInteger unsigned).bind afterFraction).bind afterExponent) == some []

/-- The units of a number in a text, where the exponent may also be marked with `E`. -/
def isNumberMark (u : CodeUnit) : Bool := isNumberUnit u || u == 69

def lowerExponent (u : CodeUnit) : CodeUnit := if u = 69 then 101 else u

theorem isNumberText_written {text : JsString} (h : isNumberText (text.map lowerExponent) = true)
    (hunits : ∀ u ∈ text, isNumberMark u = true) :
    text.map lowerExponent ≠ [] ∧ ∀ u ∈ text.map lowerExponent, isNumberUnit u = true := by
  constructor
  · intro hnil
    rw [hnil] at h
    cases h
  · intro u hu
    obtain ⟨v, hv, rfl⟩ := List.mem_map.mp hu
    have hmark := hunits v hv
    unfold lowerExponent
    split_ifs with h69
    · decide
    · simpa [isNumberMark, h69] using hmark

def parseNumber (text : JsString) : Option (Json × JsString) :=
  if h : isNumberText ((text.takeWhile isNumberMark).map lowerExponent) = true then
    some (.number ⟨_, isNumberText_written h fun _ hu => List.mem_takeWhile_imp hu⟩,
      text.dropWhile isNumberMark)
  else none

def hexDigitValue (u : CodeUnit) : Option Nat :=
  if 48 ≤ u.val ∧ u.val ≤ 57 then some (u.val - 48)
  else if 65 ≤ u.val ∧ u.val ≤ 70 then some (u.val - 55)
  else if 97 ≤ u.val ∧ u.val ≤ 102 then some (u.val - 87)
  else none

/-- The unit of an escape `\uXXXX`. -/
def hexUnit (a b c d : CodeUnit) : Option CodeUnit := do
  let a ← hexDigitValue a
  let b ← hexDigitValue b
  let c ← hexDigitValue c
  let d ← hexDigitValue d
  return Fin.ofNat 65536 (4096 * a + 256 * b + 16 * c + d)

/-- The unit of an escape of one letter. -/
def escapedUnit (u : CodeUnit) : Option CodeUnit :=
  if u = 34 ∨ u = 92 ∨ u = 47 then some u
  else if u = 98 then some 8
  else if u = 102 then some 12
  else if u = 110 then some 10
  else if u = 114 then some 13
  else if u = 116 then some 9
  else none

/-- A string, of which the opening quote has been read. -/
def parseString : JsString → Option (JsString × JsString)
  | [] => none
  | 34 :: rest => some ([], rest)
  | 92 :: 117 :: a :: b :: c :: d :: rest =>
    (hexUnit a b c d).bind fun unit => (parseString rest).map fun r => (unit :: r.1, r.2)
  | 92 :: u :: rest =>
    (escapedUnit u).bind fun unit => (parseString rest).map fun r => (unit :: r.1, r.2)
  | u :: rest =>
    if u.val < 32 then none else (parseString rest).map fun r => (u :: r.1, r.2)

/-- What follows a colon. -/
def afterColon (text : JsString) : Option JsString :=
  match skipWhitespace text with
  | [] => none
  | u :: rest => if u = 58 then some rest else none

/-- A key and the colon after it. -/
def parseKey (text : JsString) : Option (JsString × JsString) :=
  match skipWhitespace text with
  | [] => none
  | u :: rest =>
    if u = 34 then
      (parseString rest).bind fun r => (afterColon r.2).map fun rest => (r.1, rest)
    else none

/-! ## Values -/

/-- The entries of an object whose first entry is read before the others: where they repeat its
key, their value counts. -/
def putEntry (key : JsString) (value : Json) (entries : List (JsString × Json)) :
    List (JsString × Json) :=
  (key, (entries.lookup key).getD value) :: entries.filter fun e => e.1 ≠ key

mutual
def parseValue : Nat → JsString → Option (Json × JsString)
  | 0, _ => none
  | fuel + 1, text =>
    match skipWhitespace text with
    | [] => none
    | u :: rest =>
      match kindOf u with
      | .null => parseLiteral (ascii "ull") .null rest
      | .true => parseLiteral (ascii "rue") (.bool true) rest
      | .false => parseLiteral (ascii "alse") (.bool false) rest
      | .number => parseNumber (u :: rest)
      | .string => (parseString rest).map fun r => (.string r.1, r.2)
      | .array =>
        if (skipWhitespace rest).head? = some 93 then some (.array [], (skipWhitespace rest).tail)
        else (parseItems fuel rest).map fun r => (.array r.1, r.2)
      | .object =>
        if (skipWhitespace rest).head? = some 125 then some (.object [], (skipWhitespace rest).tail)
        else (parseEntries fuel rest).map fun r => (.object r.1, r.2)
/-- One or more items, up to the closing bracket. -/
def parseItems : Nat → JsString → Option (List Json × JsString)
  | 0, _ => none
  | fuel + 1, text =>
    match parseValue fuel text with
    | none => none
    | some (item, rest) =>
      match skipWhitespace rest with
      | [] => none
      | u :: rest =>
        if u = 44 then (parseItems fuel rest).map fun r => (item :: r.1, r.2)
        else if u = 93 then some ([item], rest)
        else none
/-- One or more entries, up to the closing brace. -/
def parseEntries : Nat → JsString → Option (List (JsString × Json) × JsString)
  | 0, _ => none
  | fuel + 1, text =>
    match parseKey text with
    | none => none
    | some (key, rest) =>
      match parseValue fuel rest with
      | none => none
      | some (value, rest) =>
        match skipWhitespace rest with
        | [] => none
        | u :: rest =>
          if u = 44 then (parseEntries fuel rest).map fun r => (putEntry key value r.1, r.2)
          else if u = 125 then some ([(key, value)], rest)
          else none
end

/-- `JSON.parse`; `none` where it throws a `SyntaxError`. -/
def parse (text : JsString) : Option Json :=
  match parseValue (text.length + 1) text with
  | some (value, rest) => if skipWhitespace rest = [] then some value else none
  | none => none

/-! ## What is written is read back -/

/-- Units that follow a written value: no whitespace, and nothing a number goes on with. -/
def Stops (rest : JsString) : Prop := ∀ u ∈ rest.head?, isNumberMark u = false

theorem stops_cons {u : CodeUnit} {rest : JsString} (h : isNumberMark u = false) :
    Stops (u :: rest) := by
  intro v hv
  have huv : u = v := by simpa using hv
  exact huv ▸ h

theorem skipWhitespace_cons {u : CodeUnit} {rest : JsString} (h : isWhitespaceUnit u = false) :
    skipWhitespace (u :: rest) = u :: rest := by
  simp [skipWhitespace, h]

theorem hexDigitValue_hexDigit {d : Nat} (h : d < 16) : hexDigitValue (hexDigit d) = some d := by
  have hval := hexDigit_val h
  unfold hexDigitValue
  split_ifs at hval ⊢ <;> first | omega | (congr 1; omega)

theorem parseString_raw {u : CodeUnit} (hquote : u ≠ 34) (hslash : u ≠ 92) (h32 : 32 ≤ u.val)
    (rest : JsString) :
    parseString (u :: rest) = (parseString rest).map fun r => (u :: r.1, r.2) := by
  have hcontrol : ¬ u.val < 32 := by omega
  rw [parseString, if_neg hcontrol]
  · exact hquote
  · intro a b c d r h
    exact absurd h hslash
  · intro v r h
    exact absurd h hslash

theorem parseString_unicodeEscape (u : CodeUnit) (rest : JsString) :
    parseString (unicodeEscape u ++ rest) = (parseString rest).map fun r => (u :: r.1, r.2) := by
  have hu : u.val < 65536 := u.isLt
  have ha : hexDigitValue (hexDigit (u.val / 4096)) = some (u.val / 4096) :=
    hexDigitValue_hexDigit (by omega)
  have hb : hexDigitValue (hexDigit (u.val / 256 % 16)) = some (u.val / 256 % 16) :=
    hexDigitValue_hexDigit (by omega)
  have hc : hexDigitValue (hexDigit (u.val / 16 % 16)) = some (u.val / 16 % 16) :=
    hexDigitValue_hexDigit (by omega)
  have hd : hexDigitValue (hexDigit (u.val % 16)) = some (u.val % 16) :=
    hexDigitValue_hexDigit (by omega)
  have hsum : 4096 * (u.val / 4096) + 256 * (u.val / 256 % 16) + 16 * (u.val / 16 % 16) +
      u.val % 16 = u.val := by omega
  have hback : Fin.ofNat 65536 u.val = u := Fin.ext (Nat.mod_eq_of_lt hu)
  have hunit : hexUnit (hexDigit (u.val / 4096)) (hexDigit (u.val / 256 % 16))
      (hexDigit (u.val / 16 % 16)) (hexDigit (u.val % 16)) = some u := by
    simp only [hexUnit, ha, hb, hc, hd, Option.bind_eq_bind, Option.bind_some, hsum, hback]
    rfl
  simp only [unicodeEscape, List.cons_append, List.nil_append, parseString, hunit,
    Option.bind_some]

theorem parseString_quoteUnit (u : CodeUnit) (rest : JsString) :
    parseString (quoteUnit u ++ rest) = (parseString rest).map fun r => (u :: r.1, r.2) := by
  unfold quoteUnit
  split_ifs with h8 h9 h10 h12 h13 h34 h92 hescape
  · subst h8
    rfl
  · subst h9
    rfl
  · subst h10
    rfl
  · subst h12
    rfl
  · subst h13
    rfl
  · subst h34
    rfl
  · subst h92
    rfl
  · exact parseString_unicodeEscape u rest
  · have h32 : ¬ u.val < 32 := fun h => hescape (Or.inl h)
    exact parseString_raw h34 h92 (by omega) rest

/-- A written string is read up to its closing quote. -/
theorem parseString_quoteBody (s rest : JsString) :
    parseString (quoteBody s ++ 34 :: rest) = some (s, rest) := by
  induction s using quoteBody.induct with
  | case1 => rfl
  | case2 u =>
    rw [quoteBody, parseString_quoteUnit]
    rfl
  | case3 u v s hpair ih =>
    -- the two halves of a pair stand as they are
    obtain ⟨hu, hv⟩ : isHigh u = true ∧ isLow v = true := by simpa using hpair
    have hraw : ∀ w : CodeUnit, 0xD800 ≤ w.val → w ≠ 34 ∧ w ≠ 92 ∧ 32 ≤ w.val := by
      intro w hw
      refine ⟨?_, ?_, by omega⟩
      · rintro rfl
        exact absurd hw (by decide)
      · rintro rfl
        exact absurd hw (by decide)
    simp only [isHigh, decide_eq_true_eq] at hu
    simp only [isLow, decide_eq_true_eq] at hv
    obtain ⟨hu34, hu92, hu32⟩ := hraw u hu.1
    obtain ⟨hv34, hv92, hv32⟩ := hraw v (by omega)
    rw [quoteBody, if_pos hpair, List.cons_append, List.cons_append,
      parseString_raw hu34 hu92 hu32, parseString_raw hv34 hv92 hv32, ih]
    rfl
  | case4 u v s hpair ih =>
    rw [quoteBody, if_neg hpair, List.append_assoc, parseString_quoteUnit, ih]
    rfl

theorem parseKey_quote (key rest : JsString) :
    parseKey (quote key ++ 58 :: rest) = some (key, rest) := by
  have hstring : parseString (quoteBody key ++ 34 :: 58 :: rest) = some (key, 58 :: rest) :=
    parseString_quoteBody key (58 :: rest)
  have hcolon : afterColon (58 :: rest) = some rest := by
    rw [afterColon, skipWhitespace_cons (by decide)]
    rfl
  have htext : quote key ++ 58 :: rest = 34 :: (quoteBody key ++ 34 :: 58 :: rest) := by
    simp [quote]
  rw [htext, parseKey, skipWhitespace_cons (by decide)]
  simp only [if_true, hstring, Option.bind_some, hcolon, Option.map_some]

/-- A number is read up to the first unit that no number has. -/
theorem parseNumber_append {n : JsonNumber} (hn : isNumberText n.text = true) {rest : JsString}
    (hrest : Stops rest) : parseNumber (n.text ++ rest) = some (.number n, rest) := by
  have hmark : ∀ u ∈ n.text, isNumberMark u = true := by
    intro u hu
    have hunit : isNumberUnit u = true := n.written.2 u hu
    simp [isNumberMark, hunit]
  have hlower : n.text.map lowerExponent = n.text := by
    have hid : ∀ u ∈ n.text, lowerExponent u = u := by
      intro u hu
      have hunit : isNumberUnit u = true := n.written.2 u hu
      unfold lowerExponent
      split_ifs with h69
      · exact absurd (h69 ▸ hunit) (by decide)
      · rfl
    calc n.text.map lowerExponent = n.text.map id := List.map_congr_left hid
      _ = n.text := List.map_id n.text
  have htake : (n.text ++ rest).takeWhile isNumberMark = n.text := by
    rw [List.takeWhile_append_of_pos hmark]
    cases rest with
    | nil => simp
    | cons u rest =>
      have hu : isNumberMark u = false := hrest u rfl
      simp [hu]
  have hdrop : (n.text ++ rest).dropWhile isNumberMark = rest := by
    rw [List.dropWhile_append_of_pos hmark]
    cases rest with
    | nil => rfl
    | cons u rest =>
      have hu : isNumberMark u = false := hrest u rfl
      simp [hu]
  have htext : ((n.text ++ rest).takeWhile isNumberMark).map lowerExponent = n.text := by
    rw [htake, hlower]
  have hread : isNumberText (((n.text ++ rest).takeWhile isNumberMark).map lowerExponent) = true :=
    htext.symm ▸ hn
  rw [parseNumber, dif_pos hread, hdrop]
  exact congrArg (fun m => some (Json.number m, rest)) (JsonNumber.ext' htext)

/-- Values that `JSON.parse` can give: the numbers are numbers of JSON, and no object repeats a
key. -/
inductive Readable : Json → Prop where
  | null : Readable .null
  | bool (b : Bool) : Readable (.bool b)
  | number {n : JsonNumber} (h : isNumberText n.text = true) : Readable (.number n)
  | string (s : JsString) : Readable (.string s)
  | array {items : List Json} (h : ∀ item ∈ items, Readable item) : Readable (.array items)
  | object {entries : List (JsString × Json)} (hkeys : (entries.map (·.1)).Nodup)
      (h : ∀ e ∈ entries, Readable e.2) : Readable (.object entries)

/-- The value is read from its text, with as much fuel as the text is long. -/
def ReadsBack (j : Json) : Prop :=
  ∀ fuel rest, Stops rest → j.stringify.length ≤ fuel →
    parseValue fuel (j.stringify ++ rest) = some (j, rest)

/-- A value starts with a unit that is no whitespace. -/
theorem skipWhitespace_stringify (j : Json) (rest : JsString) :
    skipWhitespace (j.stringify ++ rest) = j.stringify ++ rest := by
  obtain ⟨u, tail, htext, hkind⟩ := stringify_head j rest
  have hplain : isWhitespaceUnit u = false := by
    rw [Bool.eq_false_iff]
    intro hspace
    have hnumber : kindOf u = .number ∧ isNumberUnit u = false := by
      simp only [isWhitespaceUnit, Bool.or_eq_true, beq_iff_eq] at hspace
      rcases hspace with ((rfl | rfl) | rfl) | rfl <;> decide
    have hj : j.kind = .number := by rw [← hkind, hnumber.1]
    -- only a number is told by no unit of its own
    cases j with
    | number n =>
      obtain ⟨v, digits, hv⟩ := List.exists_cons_of_ne_nil n.written.1
      have huv : v = u := by
        rw [stringify, hv, List.cons_append] at htext
        exact (List.cons.inj htext).1
      have hunit : isNumberUnit v = true := n.written.2 v (hv ▸ List.mem_cons_self)
      rw [huv, hnumber.2] at hunit
      cases hunit
    | bool b => cases b <;> cases hj
    | _ => cases hj
  rw [htext, skipWhitespace_cons hplain]

theorem parseItems_commas {items : List Json} (hne : items ≠ [])
    (h : ∀ item ∈ items, ReadsBack item) (fuel : Nat) (rest : JsString)
    (hfuel : (commas (items.map stringify)).length < fuel) :
    parseItems fuel (commas (items.map stringify) ++ 93 :: rest) = some (items, rest) := by
  induction items generalizing fuel with
  | nil => exact absurd rfl hne
  | cons item items ih =>
    have hitem : ReadsBack item := h item List.mem_cons_self
    obtain ⟨fuel, rfl⟩ : ∃ f, fuel = f + 1 := ⟨fuel - 1, by omega⟩
    cases items with
    | nil =>
      have hlength : item.stringify.length ≤ fuel := by
        simp only [List.map_cons, List.map_nil, commas] at hfuel
        omega
      have hread := hitem fuel (93 :: rest) (stops_cons (by decide)) hlength
      simp only [List.map_cons, List.map_nil, commas, parseItems, hread]
      rw [skipWhitespace_cons (by decide)]
      rfl
    | cons next items =>
      have hlength : item.stringify.length ≤ fuel ∧
          (commas ((next :: items).map stringify)).length < fuel := by
        simp only [List.map_cons, commas, List.length_append, List.length_cons] at hfuel ⊢
        omega
      have hread := hitem fuel (44 :: (commas ((next :: items).map stringify) ++ 93 :: rest))
        (stops_cons (by decide)) hlength.1
      have htail := ih (List.cons_ne_nil _ _) (fun i hi => h i (List.mem_cons_of_mem _ hi)) fuel
        hlength.2
      have htext : commas ((item :: next :: items).map stringify) ++ 93 :: rest =
          item.stringify ++ 44 :: (commas ((next :: items).map stringify) ++ 93 :: rest) := by
        simp [commas]
      rw [htext, parseItems, hread]
      simp only [skipWhitespace_cons (u := 44) (by decide), if_true, htail, Option.map_some]

theorem putEntry_fresh {key : JsString} {value : Json} {entries : List (JsString × Json)}
    (h : key ∉ entries.map (·.1)) : putEntry key value entries = (key, value) :: entries := by
  have hother : ∀ e ∈ entries, key ≠ e.1 := by
    rintro e he rfl
    exact h (List.mem_map_of_mem he)
  have hlookup : entries.lookup key = none :=
    List.lookup_eq_none_iff.mpr fun e he => by simpa using hother e he
  have hfilter : entries.filter (fun e => e.1 ≠ key) = entries :=
    List.filter_eq_self.mpr fun e he => by simpa using (hother e he).symm
  rw [putEntry, hlookup, hfilter, Option.getD_none]

theorem parseEntries_commas {entries : List (JsString × Json)} (hne : entries ≠ [])
    (hkeys : (entries.map (·.1)).Nodup) (h : ∀ e ∈ entries, ReadsBack e.2) (fuel : Nat)
    (rest : JsString) (hfuel : (commas (entries.map stringifyEntry)).length < fuel) :
    parseEntries fuel (commas (entries.map stringifyEntry) ++ 125 :: rest) =
      some (entries, rest) := by
  induction entries generalizing fuel with
  | nil => exact absurd rfl hne
  | cons entry entries ih =>
    obtain ⟨key, value⟩ := entry
    have hvalue : ReadsBack value := h (key, value) List.mem_cons_self
    obtain ⟨fuel, rfl⟩ : ∃ f, fuel = f + 1 := ⟨fuel - 1, by omega⟩
    have hentry : ∀ rest, stringifyEntry (key, value) ++ rest =
        quote key ++ 58 :: (value.stringify ++ rest) := by
      intro rest
      simp [stringifyEntry]
    have hsize : value.stringify.length < (stringifyEntry (key, value)).length := by
      simp only [stringifyEntry, List.length_append, List.length_cons]
      omega
    cases entries with
    | nil =>
      have hlength : value.stringify.length ≤ fuel := by
        simp only [List.map_cons, List.map_nil, commas] at hfuel
        omega
      have hread := hvalue fuel (125 :: rest) (stops_cons (by decide)) hlength
      simp only [List.map_cons, List.map_nil, commas, hentry, parseEntries, parseKey_quote, hread]
      rw [skipWhitespace_cons (by decide)]
      rfl
    | cons next entries =>
      have hlength : value.stringify.length ≤ fuel ∧
          (commas ((next :: entries).map stringifyEntry)).length < fuel := by
        simp only [List.map_cons, commas, List.length_append, List.length_cons] at hfuel ⊢
        omega
      have hread := hvalue fuel
        (44 :: (commas ((next :: entries).map stringifyEntry) ++ 125 :: rest))
        (stops_cons (by decide)) hlength.1
      obtain ⟨hfresh, hkeys⟩ := List.nodup_cons.mp (List.map_cons ▸ hkeys)
      have htail := ih (List.cons_ne_nil _ _) hkeys
        (fun e he => h e (List.mem_cons_of_mem _ he)) fuel hlength.2
      have htext : commas (((key, value) :: next :: entries).map stringifyEntry) ++ 125 :: rest =
          stringifyEntry (key, value) ++
            44 :: (commas ((next :: entries).map stringifyEntry) ++ 125 :: rest) := by
        simp [commas]
      have hput : putEntry key value (next :: entries) = (key, value) :: next :: entries :=
        putEntry_fresh hfresh
      rw [htext, hentry, parseEntries]
      simp only [parseKey_quote, hread, skipWhitespace_cons (u := 44) (by decide), if_true, htail,
        Option.map_some, hput]

/-- A list written with commas starts with its first member. -/
theorem exists_commas_cons {α : Type} (text : α → JsString) (a : α) (as : List α)
    (rest : JsString) : ∃ tail, commas ((a :: as).map text) ++ rest = text a ++ tail := by
  cases as with
  | nil => exact ⟨rest, rfl⟩
  | cons b as =>
    refine ⟨44 :: (commas ((b :: as).map text) ++ rest), ?_⟩
    simp [commas]

theorem stringify_length_pos (j : Json) : 0 < j.stringify.length := by
  obtain ⟨u, rest, htext, -⟩ := stringify_head j []
  rw [List.append_nil] at htext
  rw [htext, List.length_cons]
  omega

/-- A written value is read back, whatever follows it. -/
theorem readsBack {j : Json} (hj : Readable j) : ReadsBack j := by
  induction j with
  | null =>
    rintro (_ | fuel) rest _ hfuel
    · exact absurd hfuel (by decide)
    · rfl
  | bool b =>
    rintro (_ | fuel) rest _ hfuel
    · cases b <;> exact absurd hfuel (by decide)
    · cases b <;> rfl
  | number n =>
    cases hj with
    | number hn =>
      intro fuel rest hrest hfuel
      have hpos := stringify_length_pos (.number n)
      obtain ⟨fuel, rfl⟩ : ∃ f, fuel = f + 1 := ⟨fuel - 1, by omega⟩
      obtain ⟨u, digits, hu⟩ := List.exists_cons_of_ne_nil n.written.1
      have hkind : kindOf u = .number := kindOf_number (n.written.2 u (hu ▸ List.mem_cons_self))
      have hread := parseNumber_append hn hrest
      rw [parseValue, skipWhitespace_stringify, stringify]
      rw [hu, List.cons_append] at hread ⊢
      simp only [hkind, hread]
  | string s =>
    intro fuel rest _ hfuel
    have hpos := stringify_length_pos (.string s)
    obtain ⟨fuel, rfl⟩ : ∃ f, fuel = f + 1 := ⟨fuel - 1, by omega⟩
    have hread := parseString_quoteBody s rest
    have htext : (Json.string s).stringify ++ rest = 34 :: (quoteBody s ++ 34 :: rest) := by
      simp [stringify, quote]
    rw [htext, parseValue, skipWhitespace_cons (by decide)]
    show (parseString (quoteBody s ++ 34 :: rest)).map _ = _
    rw [hread, Option.map_some]
  | array items ih =>
    cases hj with
    | array hitems =>
      intro fuel rest _ hfuel
      have hlength : (Json.array items).stringify.length =
          (commas (items.map stringify)).length + 2 := by
        simp [stringify, stringifyItems_eq]
      obtain ⟨fuel, rfl⟩ : ∃ f, fuel = f + 1 := ⟨fuel - 1, by omega⟩
      have htext : (Json.array items).stringify ++ rest =
          91 :: (commas (items.map stringify) ++ 93 :: rest) := by
        simp [stringify, stringifyItems_eq]
      rw [htext, parseValue, skipWhitespace_cons (by decide)]
      show (if _ then _ else (parseItems fuel
        (commas (items.map stringify) ++ 93 :: rest)).map _) = _
      cases items with
      | nil =>
        rw [List.map_nil, commas, List.nil_append, skipWhitespace_cons (by decide)]
        rfl
      | cons item items =>
        have hopen : (skipWhitespace (commas ((item :: items).map stringify) ++ 93 :: rest)).head? ≠
            some 93 := by
          obtain ⟨tail, htail⟩ := exists_commas_cons stringify item items (93 :: rest)
          rw [htail, skipWhitespace_stringify]
          exact stringify_head_ne item tail
        have hread := parseItems_commas (List.cons_ne_nil item items)
          (fun i hi => ih i hi (hitems i hi)) fuel rest (by omega)
        rw [if_neg hopen, hread, Option.map_some]
  | object entries ih =>
    cases hj with
    | object hkeys hentries =>
      intro fuel rest _ hfuel
      have hlength : (Json.object entries).stringify.length =
          (commas (entries.map stringifyEntry)).length + 2 := by
        simp [stringify, stringifyEntries_eq]
      obtain ⟨fuel, rfl⟩ : ∃ f, fuel = f + 1 := ⟨fuel - 1, by omega⟩
      have htext : (Json.object entries).stringify ++ rest =
          123 :: (commas (entries.map stringifyEntry) ++ 125 :: rest) := by
        simp [stringify, stringifyEntries_eq]
      rw [htext, parseValue, skipWhitespace_cons (by decide)]
      show (if _ then _ else
        (parseEntries fuel (commas (entries.map stringifyEntry) ++ 125 :: rest)).map _) = _
      cases entries with
      | nil =>
        rw [List.map_nil, commas, List.nil_append, skipWhitespace_cons (by decide)]
        rfl
      | cons entry entries =>
        have hopen : (skipWhitespace
            (commas ((entry :: entries).map stringifyEntry) ++ 125 :: rest)).head? ≠ some 125 := by
          obtain ⟨tail, htail⟩ := exists_commas_cons stringifyEntry entry entries (125 :: rest)
          have hquote : stringifyEntry entry ++ tail =
              34 :: (quoteBody entry.1 ++ 34 :: 58 :: (entry.2.stringify ++ tail)) := by
            simp [stringifyEntry, quote]
          rw [htail, hquote, skipWhitespace_cons (by decide)]
          exact fun h => absurd h (by simp)
        have hread := parseEntries_commas (List.cons_ne_nil entry entries) hkeys
          (fun e he => ih e he (hentries e he)) fuel rest (by omega)
        rw [if_neg hopen, hread, Option.map_some]

/-- **`JSON.parse` inverts `JSON.stringify`.** -/
theorem parse_stringify {j : Json} (hj : Readable j) : parse j.stringify = some j := by
  have hends : Stops [] := fun _ h => absurd h (by simp)
  have hread := readsBack hj (j.stringify.length + 1) [] hends (Nat.le_succ _)
  rw [List.append_nil] at hread
  rw [parse, hread]
  rfl

/-! ## Fuel -/

theorem length_skipWhitespace_le (text : JsString) :
    (skipWhitespace text).length ≤ text.length := List.length_dropWhile_le _ _

theorem parseLiteral_length {word text rest : JsString} {value v : Json}
    (h : parseLiteral word value text = some (v, rest)) : rest.length ≤ text.length := by
  unfold parseLiteral at h
  split_ifs at h
  obtain ⟨-, rfl⟩ := Prod.mk.inj (Option.some.inj h)
  rw [List.length_drop]
  omega

theorem parseNumber_length {text rest : JsString} {v : Json}
    (h : parseNumber text = some (v, rest)) : rest.length < text.length := by
  unfold parseNumber at h
  split_ifs at h with hread
  obtain ⟨-, rfl⟩ := Prod.mk.inj (Option.some.inj h)
  have hsplit : (text.takeWhile isNumberMark ++ text.dropWhile isNumberMark).length =
      text.length := by rw [List.takeWhile_append_dropWhile]
  have htaken : (text.takeWhile isNumberMark).length ≠ 0 := by
    intro hzero
    rw [List.length_eq_zero_iff.mp hzero] at hread
    cases hread
  rw [List.length_append] at hsplit
  omega

/-- What is left does not depend on what is made of the value. -/
theorem rest_of_map {α β : Type} {x : Option (α × JsString)} {f : α × JsString → β} {b : β}
    {rest : JsString} (h : x.map (fun r => (f r, r.2)) = some (b, rest)) :
    ∃ a, x = some (a, rest) := by
  obtain ⟨⟨a, rest'⟩, hx, heq⟩ := Option.map_eq_some_iff.mp h
  obtain ⟨-, rfl⟩ := Prod.mk.inj heq
  exact ⟨a, hx⟩

theorem parseString_length {text s rest : JsString} (h : parseString text = some (s, rest)) :
    rest.length < text.length := by
  fun_induction parseString text generalizing s with
  | case1 => cases h
  | case2 tail =>
    obtain ⟨-, rfl⟩ := Prod.mk.inj (Option.some.inj h)
    exact Nat.lt_succ_self _
  | case3 a b c d tail ih =>
    obtain ⟨unit, -, hmap⟩ := Option.bind_eq_some_iff.mp h
    obtain ⟨t, ht⟩ := rest_of_map hmap
    have hlt := ih ht
    simp only [List.length_cons]
    omega
  | case4 u tail _ ih =>
    obtain ⟨unit, -, hmap⟩ := Option.bind_eq_some_iff.mp h
    obtain ⟨t, ht⟩ := rest_of_map hmap
    have hlt := ih ht
    simp only [List.length_cons]
    omega
  | case5 => cases h
  | case6 u tail _ _ _ _ ih =>
    obtain ⟨t, ht⟩ := rest_of_map h
    have hlt := ih ht
    simp only [List.length_cons]
    omega

theorem afterColon_length {text rest : JsString} (h : afterColon text = some rest) :
    rest.length < text.length := by
  have hskip := length_skipWhitespace_le text
  unfold afterColon at h
  split at h
  · cases h
  · next u tail hs =>
    split_ifs at h
    obtain rfl := Option.some.inj h
    rw [hs, List.length_cons] at hskip
    omega

theorem parseKey_length {text key rest : JsString} (h : parseKey text = some (key, rest)) :
    rest.length < text.length := by
  have hskip := length_skipWhitespace_le text
  unfold parseKey at h
  split at h
  · cases h
  · next u tail hs =>
    split_ifs at h
    obtain ⟨⟨s, mid⟩, hstring, hmap⟩ := Option.bind_eq_some_iff.mp h
    obtain ⟨rest', hcolon, heq⟩ := Option.map_eq_some_iff.mp hmap
    obtain ⟨-, rfl⟩ := Prod.mk.inj heq
    have hs1 := parseString_length hstring
    have hs2 : rest'.length < mid.length := afterColon_length hcolon
    rw [hs, List.length_cons] at hskip
    omega

/-- What `read` finds with some fuel leaves a shorter text, and is found with any fuel that is not
less than what it consumes. -/
def Enough {α : Type} (read : Nat → JsString → Option (α × JsString)) (fuel : Nat) : Prop :=
  ∀ text a rest, read fuel text = some (a, rest) →
    rest.length < text.length ∧
      ∀ f, text.length ≤ f + rest.length → read f text = some (a, rest)

theorem enough_value {fuel : Nat} (hitems : Enough parseItems fuel)
    (hentries : Enough parseEntries fuel) : Enough parseValue (fuel + 1) := by
  intro text v rest h
  have hskip := length_skipWhitespace_le text
  rw [parseValue] at h
  cases hs : skipWhitespace text with
  | nil =>
    rw [hs] at h
    cases h
  | cons u tail =>
    rw [hs] at h
    rw [hs, List.length_cons] at hskip
    have hempty := length_skipWhitespace_le tail
    -- a branch that does not look at the fuel
    have plain : rest.length < text.length →
        (∀ f, parseValue (f + 1) text = some (v, rest)) →
        rest.length < text.length ∧
          ∀ f, text.length ≤ f + rest.length → parseValue f text = some (v, rest) := by
      intro hlt hall
      refine ⟨hlt, fun f hf => ?_⟩
      obtain ⟨f, rfl⟩ : ∃ g, f = g + 1 := ⟨f - 1, by omega⟩
      exact hall f
    cases hkind : kindOf u with
    | null =>
      simp only [hkind] at h
      have hlt := parseLiteral_length h
      refine plain (by omega) fun f => ?_
      rw [parseValue, hs]
      simpa only [hkind] using h
    | true =>
      simp only [hkind] at h
      have hlt := parseLiteral_length h
      refine plain (by omega) fun f => ?_
      rw [parseValue, hs]
      simpa only [hkind] using h
    | false =>
      simp only [hkind] at h
      have hlt := parseLiteral_length h
      refine plain (by omega) fun f => ?_
      rw [parseValue, hs]
      simpa only [hkind] using h
    | number =>
      simp only [hkind] at h
      have hlt : rest.length < tail.length + 1 := parseNumber_length h
      refine plain (by omega) fun f => ?_
      rw [parseValue, hs]
      simpa only [hkind] using h
    | string =>
      simp only [hkind] at h
      obtain ⟨s, hstring⟩ := rest_of_map h
      have hlt := parseString_length hstring
      refine plain (by omega) fun f => ?_
      rw [parseValue, hs]
      simpa only [hkind] using h
    | array =>
      simp only [hkind] at h
      split_ifs at h with hclose
      · obtain ⟨-, rfl⟩ := Prod.mk.inj (Option.some.inj h)
        refine plain (by rw [List.length_tail]; omega) fun f => ?_
        rw [parseValue, hs]
        simp only [hkind, if_pos hclose]
        exact h
      · obtain ⟨items, hread⟩ := rest_of_map h
        obtain ⟨hlt, henough⟩ := hitems tail items rest hread
        refine ⟨by omega, fun f hf => ?_⟩
        obtain ⟨f, rfl⟩ : ∃ g, f = g + 1 := ⟨f - 1, by omega⟩
        rw [parseValue, hs]
        simp only [hkind, if_neg hclose]
        rw [henough f (by omega), ← hread]
        exact h
    | object =>
      simp only [hkind] at h
      split_ifs at h with hclose
      · obtain ⟨-, rfl⟩ := Prod.mk.inj (Option.some.inj h)
        refine plain (by rw [List.length_tail]; omega) fun f => ?_
        rw [parseValue, hs]
        simp only [hkind, if_pos hclose]
        exact h
      · obtain ⟨entries, hread⟩ := rest_of_map h
        obtain ⟨hlt, henough⟩ := hentries tail entries rest hread
        refine ⟨by omega, fun f hf => ?_⟩
        obtain ⟨f, rfl⟩ : ∃ g, f = g + 1 := ⟨f - 1, by omega⟩
        rw [parseValue, hs]
        simp only [hkind, if_neg hclose]
        rw [henough f (by omega), ← hread]
        exact h

theorem enough_items {fuel : Nat} (hvalue : Enough parseValue fuel)
    (hitems : Enough parseItems fuel) : Enough parseItems (fuel + 1) := by
  intro text items rest h
  rw [parseItems] at h
  cases hread : parseValue fuel text with
  | none =>
    rw [hread] at h
    cases h
  | some r =>
    obtain ⟨item, mid⟩ := r
    obtain ⟨hlt, henough⟩ := hvalue text item mid hread
    have hskip := length_skipWhitespace_le mid
    simp only [hread] at h
    cases hs : skipWhitespace mid with
    | nil =>
      rw [hs] at h
      cases h
    | cons u tail =>
      rw [hs, List.length_cons] at hskip
      simp only [hs] at h
      split_ifs at h with hcomma hclose
      · obtain ⟨more, hmore⟩ := rest_of_map h
        obtain ⟨hlt', henough'⟩ := hitems tail more rest hmore
        refine ⟨by omega, fun f hf => ?_⟩
        obtain ⟨f, rfl⟩ : ∃ g, f = g + 1 := ⟨f - 1, by omega⟩
        rw [parseItems, henough f (by omega)]
        simp only [hs, if_pos hcomma]
        rw [henough' f (by omega), ← hmore]
        exact h
      · obtain ⟨-, rfl⟩ := Prod.mk.inj (Option.some.inj h)
        refine ⟨by omega, fun f hf => ?_⟩
        obtain ⟨f, rfl⟩ : ∃ g, f = g + 1 := ⟨f - 1, by omega⟩
        rw [parseItems, henough f (by omega)]
        simp only [hs, if_neg hcomma, if_pos hclose]
        exact h

theorem enough_entries {fuel : Nat} (hvalue : Enough parseValue fuel)
    (hentries : Enough parseEntries fuel) : Enough parseEntries (fuel + 1) := by
  intro text entries rest h
  rw [parseEntries] at h
  cases hkey : parseKey text with
  | none =>
    rw [hkey] at h
    cases h
  | some r =>
    obtain ⟨key, start⟩ := r
    have hstart := parseKey_length hkey
    simp only [hkey] at h
    cases hread : parseValue fuel start with
    | none =>
      rw [hread] at h
      cases h
    | some r =>
      obtain ⟨value, mid⟩ := r
      obtain ⟨hlt, henough⟩ := hvalue start value mid hread
      have hskip := length_skipWhitespace_le mid
      simp only [hread] at h
      cases hs : skipWhitespace mid with
      | nil =>
        rw [hs] at h
        cases h
      | cons u tail =>
        rw [hs, List.length_cons] at hskip
        simp only [hs] at h
        split_ifs at h with hcomma hclose
        · obtain ⟨more, hmore⟩ := rest_of_map h
          obtain ⟨hlt', henough'⟩ := hentries tail more rest hmore
          refine ⟨by omega, fun f hf => ?_⟩
          obtain ⟨f, rfl⟩ : ∃ g, f = g + 1 := ⟨f - 1, by omega⟩
          rw [parseEntries, hkey]
          simp only [henough f (by omega), hs, if_pos hcomma]
          rw [henough' f (by omega), ← hmore]
          exact h
        · obtain ⟨-, rfl⟩ := Prod.mk.inj (Option.some.inj h)
          refine ⟨by omega, fun f hf => ?_⟩
          obtain ⟨f, rfl⟩ : ∃ g, f = g + 1 := ⟨f - 1, by omega⟩
          rw [parseEntries, hkey]
          simp only [henough f (by omega), hs, if_neg hcomma, if_pos hclose]
          exact h

theorem enough (fuel : Nat) :
    Enough parseValue fuel ∧ Enough parseItems fuel ∧ Enough parseEntries fuel := by
  induction fuel with
  | zero =>
    refine ⟨?_, ?_, ?_⟩
    · intro text v rest h
      cases h
    · intro text v rest h
      cases h
    · intro text v rest h
      cases h
  | succ fuel ih =>
    obtain ⟨hvalue, hitems, hentries⟩ := ih
    exact ⟨enough_value hitems hentries, enough_items hvalue hitems, enough_entries hvalue hentries⟩

/-- `parse` never fails for want of fuel: what any fuel finds, it finds. -/
theorem parse_eq_some_iff {text : JsString} {v : Json} :
    parse text = some v ↔
      ∃ fuel rest, parseValue fuel text = some (v, rest) ∧ skipWhitespace rest = [] := by
  constructor
  · intro h
    unfold parse at h
    cases hread : parseValue (text.length + 1) text with
    | none =>
      rw [hread] at h
      cases h
    | some r =>
      obtain ⟨value, rest⟩ := r
      simp only [hread] at h
      split_ifs at h with hrest
      obtain rfl := Option.some.inj h
      exact ⟨_, rest, hread, hrest⟩
  · rintro ⟨fuel, rest, hread, hrest⟩
    have hfull := ((enough fuel).1 text v rest hread).2 (text.length + 1) (by omega)
    unfold parse
    simp only [hfull, if_pos hrest]

end Json
