/-
  JSON values, the text JSON writes for them, and equality up to the order of object keys.

  Two facts carry everything that signs or hashes a JSON text.  `stringify` is injective, also
  inside a longer text (`stringify_inj`): a text that starts with a written value starts with
  exactly one.  And sorting the keys of every object picks one value out of each class of values
  that differ in key order only (`sortKeys_eq_iff`), provided that no object repeats a key.

  Numbers are kept as the text JSON writes for them, which is one text for each finite number.
-/
import AccessCore.Lib.JsString

open JsString

/-! ## Values -/

/-- The units a written number is made of: digits, `+`, `-`, `.` and `e`. -/
def isNumberUnit (u : CodeUnit) : Bool :=
  decide (48 ≤ u.val ∧ u.val ≤ 57) || u == 43 || u == 45 || u == 46 || u == 101

/-- A finite number, as the text JSON writes for it. -/
structure JsonNumber where
  text : JsString
  written : text ≠ [] ∧ ∀ u ∈ text, isNumberUnit u = true

theorem JsonNumber.ext' {m n : JsonNumber} (h : m.text = n.text) : m = n := by
  cases m
  cases n
  simpa using h

instance : DecidableEq JsonNumber := fun m n =>
  decidable_of_iff (m.text = n.text) ⟨JsonNumber.ext', fun h => h ▸ rfl⟩

inductive Json where
  | null
  | bool (value : Bool)
  | number (value : JsonNumber)
  | string (value : JsString)
  | array (items : List Json)
  | object (entries : List (JsString × Json))

namespace Json

/-- Structural induction, with the hypothesis for every item and every entry. -/
@[elab_as_elim, induction_eliminator]
theorem induct {motive : Json → Prop} (null : motive .null) (bool : ∀ b, motive (.bool b))
    (number : ∀ n, motive (.number n)) (string : ∀ s, motive (.string s))
    (array : ∀ items, (∀ item ∈ items, motive item) → motive (.array items))
    (object : ∀ entries, (∀ entry ∈ entries, motive entry.2) → motive (.object entries))
    (j : Json) : motive j :=
  Json.rec (motive_1 := motive) (motive_2 := fun items => ∀ item ∈ items, motive item)
    (motive_3 := fun entries => ∀ entry ∈ entries, motive entry.2)
    (motive_4 := fun entry => motive entry.2)
    null bool number string array object
    (fun _ h => absurd h List.not_mem_nil)
    (fun item items hitem hitems v hv => by
      rcases List.mem_cons.mp hv with rfl | hv
      · exact hitem
      · exact hitems v hv)
    (fun _ h => absurd h List.not_mem_nil)
    (fun entry entries hentry hentries v hv => by
      rcases List.mem_cons.mp hv with rfl | hv
      · exact hentry
      · exact hentries v hv)
    (fun _ _ hvalue => hvalue) j

end Json

/-! ## Writing -/

/-- `texts.join(',')`. -/
def commas : List JsString → JsString
  | [] => []
  | [text] => text
  | text :: next :: texts => text ++ 44 :: commas (next :: texts)

namespace Json

mutual
/-- `JSON.stringify`. -/
def stringify : Json → JsString
  | .null => ascii "null"
  | .bool true => ascii "true"
  | .bool false => ascii "false"
  | .number n => n.text
  | .string s => quote s
  | .array items => 91 :: (commas (stringifyItems items) ++ [93])
  | .object entries => 123 :: (commas (stringifyEntries entries) ++ [125])
def stringifyItems : List Json → List JsString
  | [] => []
  | item :: items => stringify item :: stringifyItems items
def stringifyEntries : List (JsString × Json) → List JsString
  | [] => []
  | (key, value) :: entries => (quote key ++ 58 :: stringify value) :: stringifyEntries entries
end

theorem stringifyItems_eq (items : List Json) : stringifyItems items = items.map stringify := by
  induction items with
  | nil => rfl
  | cons item items ih => rw [stringifyItems, ih, List.map_cons]

/-- How one entry of an object is written. -/
def stringifyEntry (entry : JsString × Json) : JsString := quote entry.1 ++ 58 :: entry.2.stringify

theorem stringifyEntries_eq (entries : List (JsString × Json)) :
    stringifyEntries entries = entries.map stringifyEntry := by
  induction entries with
  | nil => rfl
  | cons entry entries ih => rw [stringifyEntries, ih, List.map_cons, stringifyEntry]

/-! ## A written value is read in one way -/

/-- A text at which a number before it has ended. -/
def Ends (rest : JsString) : Prop := ∀ u ∈ rest.head?, isNumberUnit u = false

theorem ends_cons {u : CodeUnit} {rest : JsString} (h : isNumberUnit u = false) :
    Ends (u :: rest) := by
  intro v hv
  have huv : u = v := by simpa using hv
  exact huv ▸ h

/-- `a` is the only thing that `text` can have written at the start of a text. -/
def ReadBack {α : Type} (text : α → JsString) (a : α) : Prop :=
  ∀ b r r', Ends r → Ends r' → text a ++ r = text b ++ r' → a = b ∧ r = r'

/-- A list written with commas and a closing unit is read in one way when its members are. -/
theorem commas_inj {α : Type} {text : α → JsString} {close : CodeUnit}
    (hclose : isNumberUnit close = false ∧ close ≠ 44)
    (hne : ∀ a r, (text a ++ r).head? ≠ some close) {as : List α}
    (h : ∀ a ∈ as, ReadBack text a) {bs : List α} {r r' : JsString}
    (heq : commas (as.map text) ++ close :: r = commas (bs.map text) ++ close :: r') :
    as = bs ∧ r = r' := by
  have comma : isNumberUnit 44 = false := by decide
  -- a written list does not start with the closing unit
  have start : ∀ (b : α) (bs : List α) (r : JsString),
      (commas ((b :: bs).map text) ++ r).head? ≠ some close := by
    intro b bs r
    cases bs with
    | nil => exact hne b r
    | cons c bs =>
      have hhead := hne b (44 :: commas ((c :: bs).map text) ++ r)
      simpa [commas] using hhead
  induction as generalizing bs with
  | nil =>
    cases bs with
    | nil => exact ⟨rfl, by simpa [commas] using heq⟩
    | cons b bs =>
      have hhead := start b bs (close :: r')
      rw [← heq] at hhead
      exact absurd rfl hhead
  | cons a as ih =>
    have ha : ReadBack text a := h a List.mem_cons_self
    have has : ∀ a ∈ as, ReadBack text a := fun b hb => h b (List.mem_cons_of_mem _ hb)
    cases bs with
    | nil =>
      have hhead := start a as (close :: r)
      rw [heq] at hhead
      exact absurd rfl hhead
    | cons b bs =>
      cases as with
      | nil =>
        cases bs with
        | nil =>
          obtain ⟨rfl, hr⟩ := ha b _ _ (ends_cons hclose.1) (ends_cons hclose.1) heq
          exact ⟨rfl, by simpa using hr⟩
        | cons c bs =>
          have heq' : text a ++ close :: r =
              text b ++ 44 :: (commas ((c :: bs).map text) ++ close :: r') := by
            simpa [commas] using heq
          obtain ⟨-, hr⟩ := ha b _ _ (ends_cons hclose.1) (ends_cons comma) heq'
          exact absurd (List.cons.inj hr).1 hclose.2
      | cons d as =>
        cases bs with
        | nil =>
          have heq' : text a ++ 44 :: (commas ((d :: as).map text) ++ close :: r) =
              text b ++ close :: r' := by
            simpa [commas] using heq
          obtain ⟨-, hr⟩ := ha b _ _ (ends_cons comma) (ends_cons hclose.1) heq'
          exact absurd (List.cons.inj hr).1.symm hclose.2
        | cons c bs =>
          have heq' : text a ++ 44 :: (commas ((d :: as).map text) ++ close :: r) =
              text b ++ 44 :: (commas ((c :: bs).map text) ++ close :: r') := by
            simpa [commas] using heq
          obtain ⟨rfl, hr⟩ := ha b _ _ (ends_cons comma) (ends_cons comma) heq'
          obtain ⟨htail, hr'⟩ := ih has (List.cons.inj hr).2
          exact ⟨by rw [htail], hr'⟩

/-- A number ends where its units end. -/
theorem number_inj {m n : JsonNumber} {r r' : JsString} (hr : Ends r) (hr' : Ends r')
    (h : m.text ++ r = n.text ++ r') : m = n ∧ r = r' := by
  have taken : ∀ (k : JsonNumber) (rest : JsString), Ends rest →
      (k.text ++ rest).takeWhile isNumberUnit = k.text := by
    intro k rest hrest
    rw [List.takeWhile_append_of_pos k.written.2]
    cases rest with
    | nil => simp
    | cons u rest =>
      have hu : isNumberUnit u = false := hrest u rfl
      simp [hu]
  have htext : m.text = n.text := by rw [← taken m r hr, ← taken n r' hr', h]
  have hmn : m = n := JsonNumber.ext' htext
  subst hmn
  exact ⟨rfl, List.append_cancel_left h⟩

/-- What a written value starts with. -/
inductive Kind where
  | null | true | false | number | string | array | object
deriving DecidableEq

def kind : Json → Kind
  | .null => .null
  | .bool true => .true
  | .bool false => .false
  | .number _ => .number
  | .string _ => .string
  | .array _ => .array
  | .object _ => .object

/-- The first unit tells the kind. -/
def kindOf (u : CodeUnit) : Kind :=
  if u = 110 then .null
  else if u = 116 then .true
  else if u = 102 then .false
  else if u = 34 then .string
  else if u = 91 then .array
  else if u = 123 then .object
  else .number

theorem kindOf_number {u : CodeUnit} (h : isNumberUnit u = true) : kindOf u = .number := by
  unfold kindOf
  split_ifs with h1 h2 h3 h4 h5 h6
  · exact absurd (h1 ▸ h) (by decide)
  · exact absurd (h2 ▸ h) (by decide)
  · exact absurd (h3 ▸ h) (by decide)
  · exact absurd (h4 ▸ h) (by decide)
  · exact absurd (h5 ▸ h) (by decide)
  · exact absurd (h6 ▸ h) (by decide)
  · rfl

theorem stringify_head (j : Json) (r : JsString) :
    ∃ u rest, j.stringify ++ r = u :: rest ∧ kindOf u = j.kind := by
  cases j with
  | null => exact ⟨_, _, rfl, rfl⟩
  | bool b =>
    cases b with
    | true => exact ⟨_, _, rfl, rfl⟩
    | false => exact ⟨_, _, rfl, rfl⟩
  | number n =>
    obtain ⟨hne, hunits⟩ := n.written
    obtain ⟨u, rest, hu⟩ := List.exists_cons_of_ne_nil hne
    refine ⟨u, rest ++ r, ?_, ?_⟩
    · rw [stringify, hu, List.cons_append]
    · exact kindOf_number (hunits u (hu ▸ List.mem_cons_self))
  | string s => exact ⟨_, _, rfl, rfl⟩
  | array items => exact ⟨_, _, rfl, rfl⟩
  | object entries => exact ⟨_, _, rfl, rfl⟩

/-- Values whose texts agree at the start are of one kind. -/
theorem kind_eq {a b : Json} {r r' : JsString} (h : a.stringify ++ r = b.stringify ++ r') :
    a.kind = b.kind := by
  obtain ⟨u, rest, hu, hk⟩ := stringify_head a r
  obtain ⟨u', rest', hu', hk'⟩ := stringify_head b r'
  have heads : u :: rest = u' :: rest' := by rw [← hu, ← hu', h]
  rw [← hk, ← hk', (List.cons.inj heads).1]

/-- A written value does not start with a bracket that closes. -/
theorem stringify_head_ne (j : Json) (r : JsString) : (j.stringify ++ r).head? ≠ some 93 := by
  cases j with
  | number n =>
    obtain ⟨hne, hunits⟩ := n.written
    obtain ⟨u, rest, hu⟩ := List.exists_cons_of_ne_nil hne
    have hunit : isNumberUnit u = true := hunits u (hu ▸ List.mem_cons_self)
    intro h
    have hu93 : u = 93 := by simpa [stringify, hu] using h
    exact absurd (hu93 ▸ hunit) (by decide)
  | null => exact fun h => absurd h (by simp [stringify, ascii])
  | bool b => cases b <;> exact fun h => absurd h (by simp [stringify, ascii])
  | string s => exact fun h => absurd h (by simp [stringify, quote])
  | array items => exact fun h => absurd h (by simp [stringify])
  | object entries => exact fun h => absurd h (by simp [stringify])

theorem readBack_entry {entry : JsString × Json} (h : ReadBack stringify entry.2) :
    ReadBack stringifyEntry entry := by
  rintro ⟨key', value'⟩ r r' hr hr' heq
  obtain ⟨key, value⟩ := entry
  have hquoted : quote key ++ (58 :: (value.stringify ++ r)) =
      quote key' ++ (58 :: (value'.stringify ++ r')) := by
    simpa [stringifyEntry] using heq
  obtain ⟨hkey, hrest⟩ := quote_inj hquoted
  obtain ⟨hvalue, hr⟩ := h value' r r' hr hr' (List.cons.inj hrest).2
  exact ⟨Prod.ext hkey hvalue, hr⟩

/-- A written value is read in one way. -/
theorem readBack (a : Json) : ReadBack stringify a := by
  induction a with
  | null =>
    intro b r r' _ _ heq
    have hkind := kind_eq heq
    cases b with
    | null => exact ⟨rfl, List.append_cancel_left heq⟩
    | bool b => cases b <;> cases hkind
    | _ => cases hkind
  | bool v =>
    intro b r r' _ _ heq
    have hkind := kind_eq heq
    cases b with
    | bool b =>
      have hvb : v = b := by cases v <;> cases b <;> first | rfl | cases hkind
      subst hvb
      exact ⟨rfl, List.append_cancel_left heq⟩
    | _ => cases v <;> cases hkind
  | number m =>
    intro b r r' hr hr' heq
    have hkind := kind_eq heq
    cases b with
    | number n =>
      obtain ⟨hmn, hrest⟩ := number_inj hr hr' heq
      exact ⟨by rw [hmn], hrest⟩
    | bool b => cases b <;> cases hkind
    | _ => cases hkind
  | string s =>
    intro b r r' _ _ heq
    have hkind := kind_eq heq
    cases b with
    | string t =>
      obtain ⟨hst, hrest⟩ := quote_inj heq
      exact ⟨by rw [hst], hrest⟩
    | bool b => cases b <;> cases hkind
    | _ => cases hkind
  | array items ih =>
    intro b r r' _ _ heq
    have hkind := kind_eq heq
    cases b with
    | array items' =>
      have heq' : commas (items.map stringify) ++ 93 :: r =
          commas (items'.map stringify) ++ 93 :: r' := by
        simpa [stringify, stringifyItems_eq] using heq
      obtain ⟨hitems, hrest⟩ := commas_inj (by decide) stringify_head_ne ih heq'
      exact ⟨by rw [hitems], hrest⟩
    | bool b => cases b <;> cases hkind
    | _ => cases hkind
  | object entries ih =>
    intro b r r' _ _ heq
    have hkind := kind_eq heq
    cases b with
    | object entries' =>
      have heq' : commas (entries.map stringifyEntry) ++ 125 :: r =
          commas (entries'.map stringifyEntry) ++ 125 :: r' := by
        simpa [stringify, stringifyEntries_eq] using heq
      have hstart : ∀ (entry : JsString × Json) (r : JsString),
          (stringifyEntry entry ++ r).head? ≠ some 125 := by
        intro entry r
        simp [stringifyEntry, quote]
      obtain ⟨hentries, hrest⟩ := commas_inj (by decide) hstart
        (fun entry hentry => readBack_entry (ih entry hentry)) heq'
      exact ⟨by rw [hentries], hrest⟩
    | bool b => cases b <;> cases hkind
    | _ => cases hkind

/-- The text determines the value. -/
theorem stringify_inj {a b : Json} (h : a.stringify = b.stringify) : a = b := by
  have hends : Ends [] := fun _ h => absurd h (by simp)
  exact (readBack a b [] [] hends hends (by rw [h])).1

/-! ## What a written value is made of -/

theorem commas_all {P : JsString → Prop} (nil : P [])
    (append : ∀ s t, P s → P t → P (s ++ t)) (comma : P [44]) {texts : List JsString}
    (h : ∀ text ∈ texts, P text) : P (commas texts) := by
  induction texts with
  | nil => exact nil
  | cons text texts ih =>
    have htext : P text := h text List.mem_cons_self
    have hrest : P (commas texts) := ih fun t ht => h t (List.mem_cons_of_mem _ ht)
    cases texts with
    | nil => exact htext
    | cons next texts =>
      have htail : P ([44] ++ commas (next :: texts)) := append _ _ comma hrest
      exact append _ _ htext htail

/-- A property of texts that the punctuation, the numbers and the quoted strings have, and that
concatenation keeps, holds of every written value. -/
theorem stringify_all {P : JsString → Prop} (append : ∀ s t, P s → P t → P (s ++ t))
    (plain : ∀ s : JsString, (∀ u ∈ s, 32 ≤ u.val ∧ u.val < 0xD800) → P s)
    (quoted : ∀ s, P (quote s)) (j : Json) : P j.stringify := by
  have unit : ∀ u : CodeUnit, 32 ≤ u.val → u.val < 0xD800 → P [u] := by
    intro u h32 hu
    refine plain _ fun v hv => ?_
    rw [List.mem_singleton.mp hv]
    exact ⟨h32, hu⟩
  have word : ∀ text : String,
      (ascii text).all (fun u => decide (32 ≤ u.val ∧ u.val < 0xD800)) = true → P (ascii text) :=
    fun text h => plain _ fun u hu => of_decide_eq_true (List.all_eq_true.mp h u hu)
  have bracket : ∀ (o c : CodeUnit) (texts : List JsString), P [o] → P [c] →
      (∀ text ∈ texts, P text) → P (o :: (commas texts ++ [c])) := by
    intro o c texts ho hc htexts
    have hbody : P (commas texts) :=
      commas_all (plain [] fun _ h => absurd h List.not_mem_nil) append
        (unit 44 (by decide) (by decide)) htexts
    exact append [o] _ ho (append _ _ hbody hc)
  induction j with
  | null => exact word "null" (by decide)
  | bool b =>
    cases b with
    | true => exact word "true" (by decide)
    | false => exact word "false" (by decide)
  | number n =>
    refine plain _ fun u hu => ?_
    have hunit : isNumberUnit u = true := n.written.2 u hu
    simp only [isNumberUnit, Bool.or_eq_true, decide_eq_true_eq, beq_iff_eq] at hunit
    have hrange : u.val = 43 ∨ u.val = 45 ∨ u.val = 46 ∨ u.val = 101 ∨
        (48 ≤ u.val ∧ u.val ≤ 57) := by
      rcases hunit with (((h | rfl) | rfl) | rfl) | rfl
      · exact Or.inr (Or.inr (Or.inr (Or.inr h)))
      · exact Or.inl rfl
      · exact Or.inr (Or.inl rfl)
      · exact Or.inr (Or.inr (Or.inl rfl))
      · exact Or.inr (Or.inr (Or.inr (Or.inl rfl)))
    omega
  | string s => exact quoted s
  | array items ih =>
    rw [stringify, stringifyItems_eq]
    refine bracket 91 93 _ (unit _ (by decide) (by decide)) (unit _ (by decide) (by decide)) ?_
    rintro text htext
    obtain ⟨item, hitem, rfl⟩ := List.mem_map.mp htext
    exact ih item hitem
  | object entries ih =>
    rw [stringify, stringifyEntries_eq]
    refine bracket 123 125 _ (unit _ (by decide) (by decide)) (unit _ (by decide) (by decide)) ?_
    rintro text htext
    obtain ⟨entry, hentry, rfl⟩ := List.mem_map.mp htext
    have hvalue : P ([58] ++ entry.2.stringify) :=
      append _ _ (unit _ (by decide) (by decide)) (ih entry hentry)
    exact append _ _ (quoted entry.1) hvalue

/-- A written value has no lone surrogate. -/
theorem wellFormed_stringify (j : Json) : wellFormed j.stringify = true :=
  stringify_all (P := fun s => wellFormed s = true) (fun _ _ => wellFormed_append)
    (fun _ h => wellFormed_of_plain fun u hu => (h u hu).2) wellFormed_quote j

/-- A written value has no control unit, so it is one line. -/
theorem mem_stringify {j : Json} {u : CodeUnit} (hu : u ∈ j.stringify) : 32 ≤ u.val :=
  stringify_all (P := fun s => ∀ u ∈ s, 32 ≤ u.val)
    (fun _ _ hs ht u hu => (List.mem_append.mp hu).elim (hs u) (ht u))
    (fun _ h u hu => (h u hu).1) (fun _ _ hu => mem_quote hu) j u hu

end Json

/-! ## Entries sorted by key -/

section SortByKey

variable {α β : Type}

/-- `entries`, sorted by their keys in the order of code units. -/
def sortByKey (entries : List (JsString × α)) : List (JsString × α) :=
  entries.insertionSort fun a b => a.1 ≤ b.1

theorem sortByKey_perm (entries : List (JsString × α)) : (sortByKey entries).Perm entries :=
  List.perm_insertionSort _ entries

theorem mem_sortByKey {entries : List (JsString × α)} {entry : JsString × α} :
    entry ∈ sortByKey entries ↔ entry ∈ entries :=
  List.mem_insertionSort _

theorem sortByKey_sorted (entries : List (JsString × α)) :
    (sortByKey entries).Pairwise fun a b => a.1 ≤ b.1 := by
  have htotal : Std.Total fun a b : JsString × α => a.1 ≤ b.1 := ⟨fun a b => le_total a.1 b.1⟩
  have htrans : IsTrans (JsString × α) fun a b => a.1 ≤ b.1 := ⟨fun _ _ _ => le_trans⟩
  exact List.pairwise_insertionSort _ entries

/-- Sorting looks at the keys only. -/
theorem sortByKey_map (f : JsString × α → β) (entries : List (JsString × α)) :
    sortByKey (entries.map fun e => (e.1, f e)) = (sortByKey entries).map fun e => (e.1, f e) :=
  (List.map_insertionSort _ _ (f := fun e : JsString × α => (e.1, f e)) _
    fun _ _ _ _ => Iff.rfl).symm

/-- Entries whose keys are distinct, in whatever order, sort to the same list. -/
theorem sortByKey_congr {entries entries' : List (JsString × α)} (h : entries.Perm entries')
    (hkeys : (entries.map (·.1)).Nodup) : sortByKey entries = sortByKey entries' := by
  have hperm : (sortByKey entries).Perm (sortByKey entries') :=
    (sortByKey_perm entries).trans (h.trans (sortByKey_perm entries').symm)
  refine hperm.eq_of_pairwise ?_ (sortByKey_sorted entries) (sortByKey_sorted entries')
  intro a b ha hb hab hba
  have hkey : a.1 = b.1 := le_antisymm hab hba
  have ha' : a ∈ entries := mem_sortByKey.mp ha
  have hb' : b ∈ entries := h.mem_iff.mpr (mem_sortByKey.mp hb)
  exact List.inj_on_of_nodup_map hkeys ha' hb' hkey

end SortByKey

/-! ## Equality up to the order of keys -/

namespace Json

mutual
/-- No object of the value repeats a key. -/
def distinctKeys : Json → Bool
  | .array items => distinctItems items
  | .object entries => decide (entries.map (·.1)).Nodup && distinctEntries entries
  | _ => true
def distinctItems : List Json → Bool
  | [] => true
  | item :: items => distinctKeys item && distinctItems items
def distinctEntries : List (JsString × Json) → Bool
  | [] => true
  | (_, value) :: entries => distinctKeys value && distinctEntries entries
end

theorem distinctKeys_array {items : List Json} :
    (Json.array items).distinctKeys = true ↔ ∀ item ∈ items, item.distinctKeys = true := by
  rw [distinctKeys]
  induction items with
  | nil => simp [distinctItems]
  | cons item items ih => simp [distinctItems, ih]

theorem distinctEntries_iff {entries : List (JsString × Json)} :
    distinctEntries entries = true ↔ ∀ entry ∈ entries, entry.2.distinctKeys = true := by
  induction entries with
  | nil => simp [distinctEntries]
  | cons entry entries ih => rw [distinctEntries, Bool.and_eq_true, ih, List.forall_mem_cons]

theorem distinctKeys_object {entries : List (JsString × Json)} :
    (Json.object entries).distinctKeys = true ↔
      (entries.map (·.1)).Nodup ∧ ∀ entry ∈ entries, entry.2.distinctKeys = true := by
  rw [distinctKeys, Bool.and_eq_true, decide_eq_true_eq, distinctEntries_iff]

/-- Two values that differ in the order of the keys of their objects, at any depth. -/
inductive KeyOrder : Json → Json → Prop where
  | refl (j : Json) : KeyOrder j j
  | trans {a b c : Json} : KeyOrder a b → KeyOrder b c → KeyOrder a c
  | swap {entries entries' : List (JsString × Json)} :
      entries.Perm entries' → KeyOrder (.object entries) (.object entries')
  | item {pre post : List Json} {v v' : Json} :
      KeyOrder v v' → KeyOrder (.array (pre ++ v :: post)) (.array (pre ++ v' :: post))
  | entry {pre post : List (JsString × Json)} {key : JsString} {v v' : Json} :
      KeyOrder v v' →
      KeyOrder (.object (pre ++ (key, v) :: post)) (.object (pre ++ (key, v') :: post))

theorem KeyOrder.symm {a b : Json} (h : KeyOrder a b) : KeyOrder b a := by
  induction h with
  | refl j => exact .refl j
  | trans _ _ ihab ihbc => exact .trans ihbc ihab
  | swap h => exact .swap h.symm
  | item _ ih => exact .item ih
  | entry _ ih => exact .entry ih

/-- Changing the order of keys repeats none. -/
theorem KeyOrder.distinctKeys {a b : Json} (h : KeyOrder a b) (ha : a.distinctKeys = true) :
    b.distinctKeys = true := by
  induction h with
  | refl j => exact ha
  | trans _ _ ihab ihbc => exact ihbc (ihab ha)
  | swap hperm =>
    obtain ⟨hkeys, hvalues⟩ := distinctKeys_object.mp ha
    refine distinctKeys_object.mpr ⟨?_, fun entry hentry => ?_⟩
    · exact (hperm.map _).nodup_iff.mp hkeys
    · exact hvalues entry (hperm.mem_iff.mpr hentry)
  | item _ ih =>
    simp only [distinctKeys_array, List.forall_mem_append, List.forall_mem_cons] at ha ⊢
    exact ⟨ha.1, ih ha.2.1, ha.2.2⟩
  | entry _ ih =>
    simp only [distinctKeys_object, List.map_append, List.map_cons, List.forall_mem_append,
      List.forall_mem_cons] at ha ⊢
    exact ⟨ha.1, ha.2.1, ih ha.2.2.1, ha.2.2.2⟩

mutual
/-- The value with the keys of every object sorted. -/
def sortKeys : Json → Json
  | .array items => .array (sortItems items)
  | .object entries => .object (sortByKey (sortEntries entries))
  | .null => .null
  | .bool value => .bool value
  | .number value => .number value
  | .string value => .string value
def sortItems : List Json → List Json
  | [] => []
  | item :: items => sortKeys item :: sortItems items
def sortEntries : List (JsString × Json) → List (JsString × Json)
  | [] => []
  | (key, value) :: entries => (key, sortKeys value) :: sortEntries entries
end

theorem sortItems_eq (items : List Json) : sortItems items = items.map sortKeys := by
  induction items with
  | nil => rfl
  | cons item items ih => rw [sortItems, ih, List.map_cons]

theorem sortEntries_eq (entries : List (JsString × Json)) :
    sortEntries entries = entries.map fun e => (e.1, e.2.sortKeys) := by
  induction entries with
  | nil => rfl
  | cons entry entries ih => rw [sortEntries, ih, List.map_cons]

theorem sortKeys_array (items : List Json) :
    (Json.array items).sortKeys = .array (items.map sortKeys) := by
  rw [sortKeys, sortItems_eq]

theorem sortKeys_object (entries : List (JsString × Json)) :
    (Json.object entries).sortKeys =
      .object ((sortByKey entries).map fun e => (e.1, e.2.sortKeys)) := by
  rw [sortKeys, sortEntries_eq, sortByKey_map fun e : JsString × Json => e.2.sortKeys]

/-- Replacing every item by one that differs in key order only. -/
theorem keyOrder_items {f : Json → Json} (pre : List Json) {items : List Json}
    (h : ∀ item ∈ items, KeyOrder item (f item)) :
    KeyOrder (.array (pre ++ items)) (.array (pre ++ items.map f)) := by
  induction items generalizing pre with
  | nil => exact .refl _
  | cons item items ih =>
    have hitem : KeyOrder item (f item) := h item List.mem_cons_self
    have hfirst : KeyOrder (.array (pre ++ item :: items)) (.array (pre ++ f item :: items)) :=
      .item hitem
    have hrest := ih (pre ++ [f item]) fun i hi => h i (List.mem_cons_of_mem _ hi)
    rw [List.append_assoc, List.append_assoc] at hrest
    exact hfirst.trans hrest

theorem keyOrder_entries {f : Json → Json} (pre : List (JsString × Json))
    {entries : List (JsString × Json)} (h : ∀ e ∈ entries, KeyOrder e.2 (f e.2)) :
    KeyOrder (.object (pre ++ entries)) (.object (pre ++ entries.map fun e => (e.1, f e.2))) := by
  induction entries generalizing pre with
  | nil => exact .refl _
  | cons e entries ih =>
    have he : KeyOrder e.2 (f e.2) := h e List.mem_cons_self
    have hfirst : KeyOrder (.object (pre ++ (e.1, e.2) :: entries))
        (.object (pre ++ (e.1, f e.2) :: entries)) := .entry he
    have hrest := ih (pre ++ [(e.1, f e.2)]) fun i hi => h i (List.mem_cons_of_mem _ hi)
    rw [List.append_assoc, List.append_assoc] at hrest
    exact hfirst.trans hrest

/-- Sorting changes the order of keys only. -/
theorem keyOrder_sortKeys (j : Json) : KeyOrder j j.sortKeys := by
  induction j with
  | null => exact .refl _
  | bool b => exact .refl _
  | number n => exact .refl _
  | string s => exact .refl _
  | array items ih =>
    rw [sortKeys_array]
    exact keyOrder_items [] ih
  | object entries ih =>
    have hswap : KeyOrder (.object entries) (.object (sortByKey entries)) :=
      .swap (sortByKey_perm entries).symm
    have hentry : ∀ e ∈ sortByKey entries, KeyOrder e.2 (sortKeys e.2) :=
      fun e he => ih e (mem_sortByKey.mp he)
    have hvalues := keyOrder_entries [] hentry
    rw [sortKeys_object]
    exact hswap.trans hvalues

/-- Values that differ in key order only sort to the same value. -/
theorem KeyOrder.sortKeys_eq {a b : Json} (h : KeyOrder a b) (ha : a.distinctKeys = true) :
    a.sortKeys = b.sortKeys := by
  induction h with
  | refl j => rfl
  | trans hab _ ihab ihbc => exact (ihab ha).trans (ihbc (hab.distinctKeys ha))
  | swap hperm =>
    have hkeys := (distinctKeys_object.mp ha).1
    rw [sortKeys_object, sortKeys_object, sortByKey_congr hperm hkeys]
  | item _ ih =>
    simp only [distinctKeys_array, List.forall_mem_append, List.forall_mem_cons] at ha
    have hv := ih ha.2.1
    simp only [sortKeys_array, List.map_append, List.map_cons, hv]
  | entry _ ih =>
    simp only [distinctKeys_object, List.forall_mem_append, List.forall_mem_cons] at ha
    have hv := ih ha.2.2.1
    rw [sortKeys, sortKeys, sortEntries_eq, sortEntries_eq]
    simp only [List.map_append, List.map_cons, hv]

/-- One sorted value for each class of values that differ in key order only. -/
theorem sortKeys_eq_iff {a b : Json} (ha : a.distinctKeys = true) :
    a.sortKeys = b.sortKeys ↔ KeyOrder a b := by
  constructor
  · intro h
    have hb : KeyOrder a.sortKeys b := h ▸ (keyOrder_sortKeys b).symm
    exact (keyOrder_sortKeys a).trans hb
  · intro h
    exact h.sortKeys_eq ha

end Json
