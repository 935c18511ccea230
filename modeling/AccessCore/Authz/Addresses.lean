/-
  Address texts and ranges (`parseIp` and `containedIn` of
  `authz/domain/policy/evaluate-condition.ts`, `isValidCidr` of `condition.ts`).

  `Denotes text ip` says what an address text means: four octets with dots between them, eight
  groups of hex digits with colons between them, or fewer with one double colon that stands for the
  groups that are missing.  `parseIp` reads exactly these texts, each as its value
  (`parseIp_iff`), and a range holds exactly the addresses that agree with its base in the bits of
  the prefix (`cidr_matching_exact`).

  The checker of the ranges has a grammar of its own.  For dotted texts it is the parser's; of a
  text with a colon it looks at the characters only, so it admits texts that are no address, and no
  address is in such a range (`accepted_cidr_usable_iff`).
-/
import AccessCore.Lib.PlaceValue
import AccessCore.Authz.Policy

namespace AccessCore

open PlaceValue

/-! ## Digits -/

theorem decimalValue_eq (text : List Char) :
    decimalValue text = placeValue 10 (text.map fun c => c.toNat - '0'.toNat) := by
  unfold decimalValue placeValue
  rw [List.foldl_map]

/-- `parseInt(group, 16)`. -/
def groupValue (group : List Char) : Nat := group.foldl (fun n c => n * 16 + hexDigitValue c) 0

theorem groupValue_eq (group : List Char) :
    groupValue group = placeValue 16 (group.map hexDigitValue) := by
  unfold groupValue placeValue
  rw [List.foldl_map]

theorem hexDigitValue_lt {c : Char} (h : isHexDigit c = true) : hexDigitValue c < 16 := by
  simp only [isHexDigit, Char.isDigit, Bool.or_eq_true, Bool.and_eq_true, decide_eq_true_eq,
    Char.le_def, UInt32.le_iff_toNat_le] at h
  simp only [hexDigitValue, Char.isDigit, Bool.and_eq_true, decide_eq_true_eq, Char.le_def,
    UInt32.le_iff_toNat_le, Char.toNat]
  split_ifs with hdecimal hlower
  · have hnine : c.val.toNat ≤ 57 := hdecimal.2
    have hzero : ('0' : Char).val.toNat = 48 := rfl
    omega
  · have hf : c.val.toNat ≤ 102 := hlower.2
    have ha : ('a' : Char).val.toNat = 97 := rfl
    omega
  · have hupper : c.val.toNat ≤ 70 := by
      rcases h with (h | h) | h
      · exact absurd h hdecimal
      · exact absurd h hlower
      · exact h.2
    have ha : ('A' : Char).val.toNat = 65 := rfl
    omega

/-- Every digit has a character. -/
theorem digitChar_spec : ∀ d < 16, isHexDigit (Nat.digitChar d) = true ∧
    hexDigitValue (Nat.digitChar d) = d ∧
    (d < 10 → (Nat.digitChar d).isDigit = true ∧ (Nat.digitChar d).toNat - '0'.toNat = d) := by
  decide

/-! ## Text forms -/

structure IsOctet (text : List Char) : Prop where
  short : isShortDecimal text = true
  le : decimalValue text ≤ 255

/-- `/^[0-9a-fA-F]{1,4}$/`. -/
structure IsGroup (text : List Char) : Prop where
  nonempty : 1 ≤ text.length
  short : text.length ≤ 4
  hex : text.all isHexDigit = true

instance (text : List Char) : Decidable (IsGroup text) :=
  decidable_of_iff (1 ≤ text.length ∧ text.length ≤ 4 ∧ text.all isHexDigit = true)
    ⟨fun h => ⟨h.1, h.2.1, h.2.2⟩, fun h => ⟨h.nonempty, h.short, h.hex⟩⟩

def dotted (octets : List (List Char)) : List Char := ['.'].intercalate octets

def colons (groups : List (List Char)) : List Char := [':'].intercalate groups

/-- What an address text means. -/
inductive Denotes : List Char → ParsedIp → Prop where
  | dotted (octets : List (List Char)) : octets.length = 4 → (∀ o ∈ octets, IsOctet o) →
      Denotes (dotted octets) ⟨32, placeValue (2 ^ 8) (octets.map decimalValue)⟩
  | groups (groups : List (List Char)) : groups.length = 8 → (∀ g ∈ groups, IsGroup g) →
      Denotes (colons groups) ⟨128, placeValue (2 ^ 16) (groups.map groupValue)⟩
  | compressed (head tail : List (List Char)) : head.length + tail.length < 8 →
      (∀ g ∈ head, IsGroup g) → (∀ g ∈ tail, IsGroup g) →
      Denotes (colons head ++ ':' :: ':' :: colons tail)
        ⟨128, placeValue (2 ^ 16) (head.map groupValue ++
          List.replicate (8 - head.length - tail.length) 0 ++ tail.map groupValue)⟩

/-- A value of one of the two widths. -/
structure ParsedIp.Valid (ip : ParsedIp) : Prop where
  bits : ip.bits = 32 ∨ ip.bits = 128
  value : ip.value < 2 ^ ip.bits

namespace IsGroup

variable {g : List Char}

theorem value_lt (h : IsGroup g) : groupValue g < 2 ^ 16 := by
  have hdigits : ∀ d ∈ g.map hexDigitValue, d < 16 := by
    intro d hd
    obtain ⟨c, hc, rfl⟩ := List.mem_map.mp hd
    exact hexDigitValue_lt (List.all_eq_true.mp h.hex c hc)
  have hlt := placeValue_lt (by decide) hdigits
  rw [List.length_map] at hlt
  have hle : 16 ^ g.length ≤ 16 ^ 4 := Nat.pow_le_pow_right (by decide) h.short
  rw [groupValue_eq]
  omega

theorem colon_notMem (h : IsGroup g) : ':' ∉ g := by
  intro hmem
  have hhex := List.all_eq_true.mp h.hex ':' hmem
  revert hhex
  decide

theorem ne_nil (h : IsGroup g) : g ≠ [] := by
  rintro rfl
  exact absurd h.nonempty (by decide)

end IsGroup

theorem IsOctet.notMem {o : List Char} (h : IsOctet o) {c : Char} (hc : c.isDigit = false) :
    c ∉ o := by
  intro hmem
  have hshort := h.short
  unfold isShortDecimal at hshort
  simp only [Bool.and_eq_true, List.all_eq_true] at hshort
  rw [hshort.2 c hmem] at hc
  cases hc

/-- The characters of joined texts. -/
theorem mem_intercalate {c sep : Char} {texts : List (List Char)}
    (h : c ∈ [sep].intercalate texts) : c = sep ∨ ∃ text ∈ texts, c ∈ text := by
  induction texts with
  | nil => simp at h
  | cons text texts ih =>
    cases texts with
    | nil =>
      rw [List.intercalate_singleton] at h
      exact Or.inr ⟨text, List.mem_cons_self, h⟩
    | cons next texts =>
      rw [List.intercalate_cons_cons] at h
      simp only [List.mem_append, List.mem_singleton] at h
      rcases h with (h | h) | h
      · exact Or.inr ⟨text, List.mem_cons_self, h⟩
      · exact Or.inl h
      · obtain h | ⟨t, ht, hct⟩ := ih h
        · exact Or.inl h
        · exact Or.inr ⟨t, List.mem_cons_of_mem _ ht, hct⟩

theorem octetValues_lt {octets : List (List Char)} (h : ∀ o ∈ octets, IsOctet o) :
    ∀ d ∈ octets.map decimalValue, d < 2 ^ 8 := by
  intro d hd
  obtain ⟨o, ho, rfl⟩ := List.mem_map.mp hd
  have hle := (h o ho).le
  omega

theorem groupValues_lt {groups : List (List Char)} (h : ∀ g ∈ groups, IsGroup g) :
    ∀ d ∈ groups.map groupValue, d < 2 ^ 16 := by
  intro d hd
  obtain ⟨g, hg, rfl⟩ := List.mem_map.mp hd
  exact (h g hg).value_lt

/-- The groups of a compressed text, with zeros for those that are missing. -/
theorem filledValues_lt {head tail : List (List Char)} (hhead : ∀ g ∈ head, IsGroup g)
    (htail : ∀ g ∈ tail, IsGroup g) (n : Nat) :
    ∀ d ∈ head.map groupValue ++ List.replicate n 0 ++ tail.map groupValue, d < 2 ^ 16 := by
  intro d hd
  rcases List.mem_append.mp hd with hd | hd
  · rcases List.mem_append.mp hd with hd | hd
    · exact groupValues_lt hhead d hd
    · rw [List.eq_of_mem_replicate hd]
      decide
  · exact groupValues_lt htail d hd

/-! ## Reading dotted texts -/

theorem octets_foldlM (parts : List (List Char)) (acc : Nat) {v : Nat} :
    parts.foldlM (fun result part =>
      if !isShortDecimal part then none
      else if 255 < decimalValue part then none
      else some ((result <<< 8) ||| decimalValue part)) acc = some v ↔
    (∀ o ∈ parts, IsOctet o) ∧
      v = (parts.map decimalValue).foldl (fun v d => (v <<< 8) ||| d) acc := by
  induction parts generalizing acc with
  | nil =>
    rw [List.foldlM_nil]
    simp [eq_comm]
  | cons part parts ih =>
    rw [List.foldlM_cons, List.forall_mem_cons, List.map_cons, List.foldl_cons]
    by_cases hoctet : IsOctet part
    · have hle : ¬ 255 < decimalValue part := by
        have hvalue := hoctet.le
        omega
      simp only [hoctet.short, Bool.not_true, Bool.false_eq_true, if_false, hle]
      exact (ih _).trans (by simp [hoctet])
    · have hnone : (if !isShortDecimal part then none
          else if 255 < decimalValue part then none
          else some ((acc <<< 8) ||| decimalValue part) : Option Nat) = none := by
        split_ifs with hshort hlarge
        · rfl
        · rfl
        · exact absurd ⟨by simpa using hshort, by omega⟩ hoctet
      rw [hnone]
      simp [hoctet]

theorem parseIpv4_iff {value : List Char} {v : Nat} : parseIpv4 value = some v ↔
    ∃ octets, octets.length = 4 ∧ (∀ o ∈ octets, IsOctet o) ∧ value = dotted octets ∧
      v = placeValue (2 ^ 8) (octets.map decimalValue) := by
  have hread : ∀ octets : List (List Char), (∀ o ∈ octets, IsOctet o) →
      (octets.map decimalValue).foldl (fun v d => (v <<< 8) ||| d) 0 =
        placeValue (2 ^ 8) (octets.map decimalValue) := by
    intro octets h
    exact foldl_shiftLeft_or (octetValues_lt h)
  unfold parseIpv4
  dsimp only
  constructor
  · intro h
    split_ifs at h with hlength
    obtain ⟨hoctets, hvalue⟩ := (octets_foldlM _ 0).mp h
    refine ⟨value.splitOn '.', by simpa using hlength, hoctets, ?_, ?_⟩
    · exact (List.intercalate_splitOn '.').symm
    · rw [hvalue, hread _ hoctets]
  · rintro ⟨octets, hlength, hoctets, rfl, rfl⟩
    have hne : octets ≠ [] := by
      rintro rfl
      cases hlength
    have hsplit : (dotted octets).splitOn '.' = octets :=
      List.splitOn_intercalate '.' (fun o ho => (hoctets o ho).notMem (by decide)) hne
    rw [hsplit, if_neg (by simp [hlength]), octets_foldlM, hread _ hoctets]
    exact ⟨hoctets, rfl⟩

/-! ## Reading groups -/

theorem mapM_groups (texts : List (List Char)) {values : List Nat} :
    texts.mapM (fun group =>
      if 1 ≤ group.length && group.length ≤ 4 && group.all isHexDigit then
        some (group.foldl (fun n c => n * 16 + hexDigitValue c) 0)
      else none) = some values ↔
    (∀ g ∈ texts, IsGroup g) ∧ values = texts.map groupValue := by
  induction texts generalizing values with
  | nil =>
    rw [List.mapM_nil]
    constructor
    · intro h
      exact ⟨fun g hg => absurd hg List.not_mem_nil, (Option.some.inj h).symm⟩
    · rintro ⟨-, rfl⟩
      rfl
  | cons text texts ih =>
    rw [List.mapM_cons, List.forall_mem_cons, List.map_cons]
    by_cases hgroup : IsGroup text
    · have hif : (1 ≤ text.length && text.length ≤ 4 && text.all isHexDigit) = true := by
        simp [hgroup.nonempty, hgroup.short, hgroup.hex]
      rw [if_pos hif]
      cases hrest : texts.mapM (fun group =>
          if 1 ≤ group.length && group.length ≤ 4 && group.all isHexDigit then
            some (group.foldl (fun n c => n * 16 + hexDigitValue c) 0)
          else none) with
      | none =>
        have hnone : ¬ ∀ g ∈ texts, IsGroup g := by
          intro hall
          have hsome := ih.mpr ⟨hall, rfl⟩
          rw [hrest] at hsome
          cases hsome
        simp [hnone]
      | some rest =>
        obtain ⟨hall, rfl⟩ := ih.mp hrest
        have hvalue : text.foldl (fun n c => n * 16 + hexDigitValue c) 0 = groupValue text := rfl
        simp only [hvalue, Option.pure_def, Option.bind_eq_bind, Option.bind_some,
          Option.some.injEq]
        exact ⟨fun h => ⟨⟨hgroup, hall⟩, h.symm⟩, fun h => h.2.symm⟩
    · have hif : ¬ (1 ≤ text.length && text.length ≤ 4 && text.all isHexDigit) = true := by
        intro h
        simp only [Bool.and_eq_true, decide_eq_true_eq] at h
        exact hgroup ⟨h.1.1, h.1.2, h.2⟩
      rw [if_neg hif]
      simp [hgroup]

theorem parseGroups_iff {part : List Char} {values : List Nat} : parseGroups part = some values ↔
    ∃ groups, (∀ g ∈ groups, IsGroup g) ∧ part = colons groups ∧
      values = groups.map groupValue := by
  unfold parseGroups
  constructor
  · intro h
    split_ifs at h with hempty
    · refine ⟨[], fun g hg => absurd hg List.not_mem_nil, ?_, ?_⟩
      · rw [List.isEmpty_iff.mp hempty]
        rfl
      · exact (Option.some.inj h).symm
    · obtain ⟨hgroups, hvalues⟩ := (mapM_groups _).mp h
      exact ⟨part.splitOn ':', hgroups, (List.intercalate_splitOn ':').symm, hvalues⟩
  · rintro ⟨groups, hgroups, rfl, rfl⟩
    cases groups with
    | nil => rfl
    | cons g groups =>
      have hsplit : (colons (g :: groups)).splitOn ':' = g :: groups :=
        List.splitOn_intercalate ':' (fun o ho => (hgroups o ho).colon_notMem)
          (List.cons_ne_nil g groups)
      have hne : ¬ (colons (g :: groups)).isEmpty = true := by
        intro hempty
        rw [List.isEmpty_iff.mp hempty] at hsplit
        have hnil : g = [] := by
          have hhead := congrArg List.head? hsplit
          simpa [eq_comm] using hhead
        exact (hgroups g List.mem_cons_self).ne_nil hnil
      rw [if_neg hne, hsplit]
      exact (mapM_groups _).mpr ⟨hgroups, rfl⟩

/-! ## The double colon -/

theorem splitDoubleColon_ne_nil (value : List Char) : splitDoubleColon value ≠ [] := by
  fun_cases splitDoubleColon value <;> simp

/-- A character that opens no double colon goes into the first part. -/
theorem splitDoubleColon_cons {c : Char} {rest : List Char}
    (h : ∀ rest', c = ':' → rest ≠ ':' :: rest') :
    splitDoubleColon (c :: rest) = (splitDoubleColon rest).modifyHead (c :: ·) := by
  rw [splitDoubleColon.eq_3 c rest fun rest' hc hrest => h rest' hc hrest]
  cases hparts : splitDoubleColon rest with
  | nil => exact absurd hparts (splitDoubleColon_ne_nil rest)
  | cons part parts => rfl

theorem splitDoubleColon_append {g : List Char} (h : ':' ∉ g) (rest : List Char) :
    splitDoubleColon (g ++ rest) = (splitDoubleColon rest).modifyHead (g ++ ·) := by
  induction g with
  | nil =>
    rw [List.nil_append]
    cases splitDoubleColon rest with
    | nil => rfl
    | cons part parts => rfl
  | cons c g ih =>
    obtain ⟨hc, hg⟩ := not_or.mp (List.mem_cons.not.mp h)
    rw [List.cons_append, splitDoubleColon_cons fun _ hcolon => absurd hcolon.symm hc, ih hg,
      List.modifyHead_modifyHead]
    rfl

/-- Joined groups hold no double colon and end in no colon. -/
theorem splitDoubleColon_colons {groups : List (List Char)} (h : ∀ g ∈ groups, IsGroup g)
    (rest : List Char) : splitDoubleColon (colons groups ++ rest) =
      (splitDoubleColon rest).modifyHead (colons groups ++ ·) := by
  induction groups with
  | nil => exact splitDoubleColon_append List.not_mem_nil rest
  | cons g groups ih =>
    have hg := h g List.mem_cons_self
    cases groups with
    | nil =>
      have hsingle : colons [g] = g := List.intercalate_singleton
      rw [hsingle]
      exact splitDoubleColon_append hg.colon_notMem rest
    | cons next groups =>
      have hnext := h next (List.mem_cons_of_mem _ List.mem_cons_self)
      have hjoin : colons (g :: next :: groups) ++ rest =
          g ++ ':' :: (colons (next :: groups) ++ rest) := by
        simp [colons, List.intercalate_cons_cons]
      have hfirst : ∀ rest', colons (next :: groups) ++ rest ≠ ':' :: rest' := by
        intro rest' heq
        obtain ⟨c, next', rfl⟩ := List.exists_cons_of_ne_nil hnext.ne_nil
        have hhead : c = ':' := by
          cases groups with
          | nil =>
            simp only [colons, List.intercalate_singleton, List.cons_append] at heq
            exact (List.cons.inj heq).1
          | cons third groups =>
            simp only [colons, List.intercalate_cons_cons, List.cons_append] at heq
            exact (List.cons.inj heq).1
        exact hnext.colon_notMem (hhead ▸ List.mem_cons_self)
      rw [hjoin, splitDoubleColon_append hg.colon_notMem,
        splitDoubleColon_cons fun rest' _ => hfirst rest',
        ih fun g' hg' => h g' (List.mem_cons_of_mem _ hg'), List.modifyHead_modifyHead,
        List.modifyHead_modifyHead]
      congr 1
      funext part
      simp [colons, List.intercalate_cons_cons]

/-- The parts, joined again. -/
theorem intercalate_splitDoubleColon (value : List Char) :
    [':', ':'].intercalate (splitDoubleColon value) = value := by
  fun_induction splitDoubleColon value with
  | case1 => rfl
  | case2 rest ih =>
    cases hparts : splitDoubleColon rest with
    | nil => exact absurd hparts (splitDoubleColon_ne_nil rest)
    | cons part parts =>
      rw [hparts] at ih
      rw [List.intercalate_cons_cons, ih]
      rfl
  | case3 c rest hno part parts hparts ih =>
    rw [hparts] at ih
    cases parts with
    | nil =>
      rw [List.intercalate_singleton] at ih ⊢
      rw [ih]
    | cons next parts =>
      rw [List.intercalate_cons_cons] at ih ⊢
      rw [← ih]
      rfl
  | case4 c rest hno hnone ih => exact absurd hnone (splitDoubleColon_ne_nil rest)

/-- Eight values, or fewer with one double colon for the missing ones. -/
theorem parseIpv6_iff {value : List Char} {v : Nat} : parseIpv6 value = some v ↔
    (∃ groups, groups.length = 8 ∧ (∀ g ∈ groups, IsGroup g) ∧ value = colons groups ∧
      v = placeValue (2 ^ 16) (groups.map groupValue)) ∨
    (∃ head tail, head.length + tail.length < 8 ∧ (∀ g ∈ head, IsGroup g) ∧
      (∀ g ∈ tail, IsGroup g) ∧ value = colons head ++ ':' :: ':' :: colons tail ∧
      v = placeValue (2 ^ 16) (head.map groupValue ++
        List.replicate (8 - head.length - tail.length) 0 ++ tail.map groupValue)) := by
  constructor
  · intro h
    unfold parseIpv6 at h
    dsimp only at h
    split at h
    · -- No double colon.
      obtain ⟨all, hall, hread⟩ := Option.bind_eq_some_iff.mp h
      obtain ⟨groups, hgroups, rfl, rfl⟩ := parseGroups_iff.mp hall
      split_ifs at hread with height
      · obtain rfl := Option.some.inj hread
        rw [List.length_map] at height
        refine Or.inl ⟨groups, height, hgroups, rfl, ?_⟩
        exact foldl_shiftLeft_or (groupValues_lt hgroups)
      · cases hread
    · -- One double colon.
      rename_i headPart tailPart hsplit
      obtain ⟨headValues, hheadValues, hrest⟩ := Option.bind_eq_some_iff.mp h
      obtain ⟨tailValues, htailValues, hread⟩ := Option.bind_eq_some_iff.mp hrest
      obtain ⟨head, hhead, rfl, rfl⟩ := parseGroups_iff.mp hheadValues
      obtain ⟨tail, htail, rfl, rfl⟩ := parseGroups_iff.mp htailValues
      split_ifs at hread with hroom
      · obtain rfl := Option.some.inj hread
        rw [List.length_map, List.length_map] at hroom ⊢
        refine Or.inr ⟨head, tail, hroom, hhead, htail, ?_, ?_⟩
        · rw [← intercalate_splitDoubleColon value, hsplit]
          simp [List.intercalate_cons_cons]
        · exact foldl_shiftLeft_or (filledValues_lt hhead htail _)
      · cases hread
    · cases h
  · rintro (⟨groups, height, hgroups, rfl, rfl⟩ | ⟨head, tail, hroom, hhead, htail, rfl, rfl⟩)
    · have hsplit := splitDoubleColon_colons hgroups []
      rw [List.append_nil] at hsplit
      have hsingle : splitDoubleColon (colons groups) = [colons groups] := by
        rw [hsplit]
        simp [splitDoubleColon]
      unfold parseIpv6
      simp only [hsingle, parseGroups_iff.mpr ⟨groups, hgroups, rfl, rfl⟩, List.length_map, height,
        Option.bind_eq_bind, Option.bind_some, if_true, Option.pure_def]
      rw [foldl_shiftLeft_or (groupValues_lt hgroups)]
    · have htwo : splitDoubleColon (colons head ++ ':' :: ':' :: colons tail) =
          [colons head, colons tail] := by
        have htailSplit := splitDoubleColon_colons htail []
        rw [List.append_nil] at htailSplit
        rw [splitDoubleColon_colons hhead, splitDoubleColon.eq_2, htailSplit]
        simp [splitDoubleColon]
      unfold parseIpv6
      simp only [htwo, parseGroups_iff.mpr ⟨head, hhead, rfl, rfl⟩,
        parseGroups_iff.mpr ⟨tail, htail, rfl, rfl⟩, List.length_map, hroom, Option.bind_eq_bind,
        Option.bind_some, if_true, Option.pure_def]
      rw [foldl_shiftLeft_or (filledValues_lt hhead htail _)]

/-! ## Reading addresses -/

theorem colon_notMem_dotted {octets : List (List Char)} (h : ∀ o ∈ octets, IsOctet o) :
    ':' ∉ dotted octets := by
  intro hmem
  rcases mem_intercalate hmem with hdot | ⟨o, ho, hcolon⟩
  · exact absurd hdot (by decide)
  · exact (h o ho).notMem (by decide) hcolon

theorem colon_mem_colons {groups : List (List Char)} (h : 2 ≤ groups.length) :
    ':' ∈ colons groups := by
  match groups, h with
  | g :: next :: groups, _ => simp [colons, List.intercalate_cons_cons]

/-- **The parser reads exactly the address texts, each as its value.** -/
theorem parseIp_iff {text : List Char} {ip : ParsedIp} : parseIp text = some ip ↔
    Denotes text ip := by
  unfold parseIp
  constructor
  · intro h
    split_ifs at h with hcolon
    · obtain ⟨v, hv, rfl⟩ := Option.map_eq_some_iff.mp h
      rcases parseIpv6_iff.mp hv with ⟨groups, height, hgroups, rfl, rfl⟩ |
        ⟨head, tail, hroom, hhead, htail, rfl, rfl⟩
      · exact .groups groups height hgroups
      · exact .compressed head tail hroom hhead htail
    · obtain ⟨v, hv, rfl⟩ := Option.map_eq_some_iff.mp h
      obtain ⟨octets, hfour, hoctets, rfl, rfl⟩ := parseIpv4_iff.mp hv
      exact .dotted octets hfour hoctets
  · intro h
    cases h with
    | dotted octets hfour hoctets =>
      rw [if_neg (colon_notMem_dotted hoctets),
        parseIpv4_iff.mpr ⟨octets, hfour, hoctets, rfl, rfl⟩]
      rfl
    | groups groups height hgroups =>
      rw [if_pos (colon_mem_colons (by omega)),
        parseIpv6_iff.mpr (Or.inl ⟨groups, height, hgroups, rfl, rfl⟩)]
      rfl
    | compressed head tail hroom hhead htail =>
      rw [if_pos (List.mem_append_right _ List.mem_cons_self),
        parseIpv6_iff.mpr (Or.inr ⟨head, tail, hroom, hhead, htail, rfl, rfl⟩)]
      rfl

/-- A text means a value of its width. -/
theorem Denotes.valid {text : List Char} {ip : ParsedIp} (h : Denotes text ip) : ip.Valid := by
  cases h with
  | dotted octets hfour hoctets =>
    have hlt := placeValue_lt (by decide) (octetValues_lt hoctets)
    rw [List.length_map, hfour] at hlt
    exact ⟨Or.inl rfl, hlt⟩
  | groups groups height hgroups =>
    have hlt := placeValue_lt (by decide) (groupValues_lt hgroups)
    rw [List.length_map, height] at hlt
    exact ⟨Or.inr rfl, hlt⟩
  | compressed head tail hroom hhead htail =>
    have hlt := placeValue_lt (by decide)
      (filledValues_lt hhead htail (8 - head.length - tail.length))
    have hlength : (head.map groupValue ++ List.replicate (8 - head.length - tail.length) 0 ++
        tail.map groupValue).length = 8 := by
      simp only [List.length_append, List.length_map, List.length_replicate]
      omega
    rw [hlength] at hlt
    exact ⟨Or.inr rfl, hlt⟩

/-- A text with a colon means a value of 128 bits. -/
theorem Denotes.bits_of_colon {text : List Char} {ip : ParsedIp} (h : Denotes text ip)
    (hcolon : ':' ∈ text) : ip.bits = 128 := by
  cases h with
  | dotted octets hfour hoctets => exact absurd hcolon (colon_notMem_dotted hoctets)
  | groups groups height hgroups => rfl
  | compressed head tail hroom hhead htail => rfl

/-- Texts can be chosen one by one. -/
theorem exists_texts {P : List Char → Prop} {value : List Char → Nat} {n : Nat}
    (h : ∀ d < n, ∃ text, P text ∧ value text = d) {ds : List Nat} (hds : ∀ d ∈ ds, d < n) :
    ∃ texts : List (List Char), (∀ text ∈ texts, P text) ∧ texts.map value = ds := by
  induction ds with
  | nil => exact ⟨[], fun text ht => absurd ht List.not_mem_nil, rfl⟩
  | cons d ds ih =>
    obtain ⟨text, htext, rfl⟩ := h d (hds d List.mem_cons_self)
    obtain ⟨texts, htexts, rfl⟩ := ih fun e he => hds e (List.mem_cons_of_mem _ he)
    refine ⟨text :: texts, ?_, rfl⟩
    intro t ht
    rcases List.mem_cons.mp ht with rfl | ht
    · exact htext
    · exact htexts t ht

/-- Digits written and read again. -/
theorem read_digitChars {read : Char → Nat} {ds : List Nat}
    (h : ∀ d ∈ ds, read (Nat.digitChar d) = d) : (ds.map Nat.digitChar).map read = ds := by
  rw [List.map_map]
  calc ds.map (read ∘ Nat.digitChar) = ds.map id := List.map_congr_left h
    _ = ds := List.map_id ds

/-- Every number of three decimal digits has a text. -/
theorem exists_shortDecimal {n : Nat} (h : n < 1000) :
    ∃ text, isShortDecimal text = true ∧ decimalValue text = n := by
  obtain ⟨ds, hlength, hds, rfl⟩ := exists_digits (b := 10) (by decide) 3 n h
  refine ⟨ds.map Nat.digitChar, ?_, ?_⟩
  · have hdigits : (ds.map Nat.digitChar).all Char.isDigit = true := by
      rw [List.all_map, List.all_eq_true]
      intro d hd
      have hd10 := hds d hd
      exact ((digitChar_spec d (by omega)).2.2 hd10).1
    unfold isShortDecimal
    rw [hdigits, List.length_map, hlength]
    rfl
  · rw [decimalValue_eq, read_digitChars]
    intro d hd
    have hd10 := hds d hd
    exact ((digitChar_spec d (by omega)).2.2 hd10).2

theorem exists_group {n : Nat} (h : n < 2 ^ 16) : ∃ text, IsGroup text ∧ groupValue text = n := by
  obtain ⟨ds, hlength, hds, rfl⟩ := exists_digits (b := 16) (by decide) 4 n h
  refine ⟨ds.map Nat.digitChar, ?_, ?_⟩
  · refine ⟨by simp [hlength], by simp [hlength], ?_⟩
    rw [List.all_map, List.all_eq_true]
    intro d hd
    exact (digitChar_spec d (hds d hd)).1
  · rw [groupValue_eq, read_digitChars]
    exact fun d hd => (digitChar_spec d (hds d hd)).2.1

/-- **Every value of a width has a text.** -/
theorem exists_denotes {ip : ParsedIp} (h : ip.Valid) : ∃ text, Denotes text ip := by
  obtain ⟨bits, value⟩ := ip
  obtain ⟨rfl | rfl, hvalue⟩ := h
  · have hoctet : ∀ d < 2 ^ 8, ∃ text, IsOctet text ∧ decimalValue text = d := by
      intro d hd
      obtain ⟨text, hshort, rfl⟩ := exists_shortDecimal (n := d) (by omega)
      exact ⟨text, ⟨hshort, by omega⟩, rfl⟩
    obtain ⟨ds, hlength, hds, rfl⟩ := exists_digits (b := 2 ^ 8) (by decide) 4 value hvalue
    obtain ⟨octets, hoctets, rfl⟩ := exists_texts hoctet hds
    rw [List.length_map] at hlength
    exact ⟨_, .dotted octets hlength hoctets⟩
  · obtain ⟨ds, hlength, hds, rfl⟩ := exists_digits (b := 2 ^ 16) (by decide) 8 value hvalue
    obtain ⟨groups, hgroups, rfl⟩ := exists_texts (fun d => exists_group) hds
    rw [List.length_map] at hlength
    exact ⟨_, .groups groups hlength hgroups⟩

/-! ## Ranges -/

/-- A range: an address text and the digits of a prefix length. -/
def cidrText (addr prefixText : List Char) : String := String.ofList (addr ++ '/' :: prefixText)

theorem Denotes.slash_notMem {text : List Char} {ip : ParsedIp} (h : Denotes text ip) :
    '/' ∉ text := by
  have hcolons : ∀ groups : List (List Char), (∀ g ∈ groups, IsGroup g) → '/' ∉ colons groups := by
    intro groups hgroups hmem
    rcases mem_intercalate hmem with hcolon | ⟨g, hg, hslash⟩
    · exact absurd hcolon (by decide)
    · exact absurd (List.all_eq_true.mp (hgroups g hg).hex '/' hslash) (by decide)
  cases h with
  | dotted octets hfour hoctets =>
    intro hmem
    rcases mem_intercalate hmem with hdot | ⟨o, ho, hslash⟩
    · exact absurd hdot (by decide)
    · exact (hoctets o ho).notMem (by decide) hslash
  | groups groups height hgroups => exact hcolons groups hgroups
  | compressed head tail hroom hhead htail =>
    intro hmem
    rcases List.mem_append.mp hmem with hmem | hmem
    · exact hcolons head hhead hmem
    · simp only [List.mem_cons] at hmem
      rcases hmem with hcolon | hcolon | hmem
      · exact absurd hcolon (by decide)
      · exact absurd hcolon (by decide)
      · exact hcolons tail htail hmem

/-- What `containedIn` compares. -/
theorem containedIn_iff {ip base : ParsedIp} {cidr : String} {addr prefixText : List Char}
    (hsplit : splitAtFirst '/' cidr.toList = some (addr, prefixText))
    (hbase : parseIp addr = some base) (hshort : isShortDecimal prefixText = true)
    (hlength : decimalValue prefixText ≤ base.bits) (hip : ip.Valid) :
    containedIn ip cidr = true ↔ ip.bits = base.bits ∧
      ip.value >>> (base.bits - decimalValue prefixText) =
        base.value >>> (base.bits - decimalValue prefixText) := by
  have hdigits : (!prefixText.isEmpty && prefixText.all Char.isDigit) = true := by
    unfold isShortDecimal at hshort
    simp only [Bool.and_eq_true, decide_eq_true_eq] at hshort
    obtain ⟨⟨hone, -⟩, hall⟩ := hshort
    rw [hall, Bool.and_true, Bool.not_eq_true', List.isEmpty_eq_false_iff]
    rintro rfl
    exact absurd hone (by decide)
  have hvalid := (parseIp_iff.mp hbase).valid
  unfold containedIn
  simp only [hsplit, hbase, hdigits, Bool.not_true, Bool.false_eq_true, if_false, ite_not]
  by_cases hbits : base.bits = ip.bits
  · have hle : ¬ ip.bits < decimalValue prefixText := by omega
    have hvalue := hvalid.value
    rw [hbits] at hvalue
    simp only [hbits, if_true, hle, if_false, true_and, decide_eq_true_eq, Nat.one_shiftLeft]
    exact and_mask_eq_iff (by omega) hip.value hvalue
  · simp only [hbits, if_false, Bool.false_eq_true, false_iff, not_and]
    intro heq
    exact absurd heq.symm hbits

/-- **Matching is exact.**  Every value of a width has texts, the parser reads each of them as that
value, and a range holds exactly the addresses of its width that agree with its base once both are
shifted down to the prefix. -/
theorem cidr_matching_exact {ip base : ParsedIp} (hip : ip.Valid) (hbase : base.Valid) :
    (∃ text, Denotes text ip) ∧ (∃ text, Denotes text base) ∧
    (∀ text, parseIp text = some ip ↔ Denotes text ip) ∧
    ∀ addr, Denotes addr base → ∀ p ≤ base.bits,
      (∃ prefixText, isShortDecimal prefixText = true ∧ decimalValue prefixText = p) ∧
      ∀ prefixText, isShortDecimal prefixText = true → decimalValue prefixText = p →
        (containedIn ip (cidrText addr prefixText) = true ↔ ip.bits = base.bits ∧
          ip.value >>> (base.bits - p) = base.value >>> (base.bits - p)) := by
  refine ⟨exists_denotes hip, exists_denotes hbase, fun text => parseIp_iff, ?_⟩
  intro addr haddr p hp
  have hwidth : base.bits ≤ 128 := by
    rcases hbase.bits with h | h <;> omega
  refine ⟨exists_shortDecimal (by omega), ?_⟩
  rintro prefixText hshort rfl
  have hsplit : splitAtFirst '/' (cidrText addr prefixText).toList = some (addr, prefixText) := by
    unfold cidrText
    rw [String.toList_ofList]
    exact splitAtFirst_append haddr.slash_notMem
  exact containedIn_iff hsplit (parseIp_iff.mpr haddr) hshort hp hip

/-- `10.1.2.3` is in `10.0.0.0/8`. -/
theorem cidr_matching_exact_ten :
    containedIn ⟨32, 167838211⟩ (cidrText "10.0.0.0".toList "8".toList) = true := by
  have hbase : Denotes "10.0.0.0".toList ⟨32, 167772160⟩ := parseIp_iff.mp (by decide)
  have hip : ParsedIp.Valid ⟨32, 167838211⟩ := ⟨Or.inl rfl, by decide⟩
  have hmatching := (cidr_matching_exact hip hbase.valid).2.2.2 "10.0.0.0".toList
    hbase 8 (by decide)
  exact (hmatching.2 "8".toList (by decide) (by decide)).mpr ⟨rfl, by decide⟩

/-! ## The checker of the ranges -/

/-- A range that can match: its base is an address, its prefix is no longer than the address, and
some address is in it. -/
def Usable (cidr : String) : Prop :=
  ∃ addr prefixText base, splitAtFirst '/' cidr.toList = some (addr, prefixText) ∧
    parseIp addr = some base ∧ decimalValue prefixText ≤ base.bits ∧
    ∃ ip : ParsedIp, ip.Valid ∧ containedIn ip cidr = true

/-- What `isValidCidr` checks: of a base with a colon the characters, of another one the grammar. -/
theorem isValidCidr_cases {cidr : String} (h : isValidCidr cidr = true) :
    ∃ addr prefixText, splitAtFirst '/' cidr.toList = some (addr, prefixText) ∧
      isShortDecimal prefixText = true ∧
      ((':' ∈ addr ∧ decimalValue prefixText ≤ 128) ∨
        (':' ∉ addr ∧ decimalValue prefixText ≤ 32 ∧ ∃ value, Denotes addr ⟨32, value⟩)) := by
  unfold isValidCidr at h
  cases hsplit : splitAtFirst '/' cidr.toList with
  | none =>
    rw [hsplit] at h
    cases h
  | some parts =>
    obtain ⟨addr, prefixText⟩ := parts
    rw [hsplit] at h
    dsimp only at h
    split_ifs at h with hshort hcolon hlength hoctets
    · simp only [Bool.and_eq_true, decide_eq_true_eq] at h
      exact ⟨addr, prefixText, rfl, by simpa using hshort, Or.inl ⟨hcolon, h.1.1⟩⟩
    · refine ⟨addr, prefixText, rfl, by simpa using hshort, Or.inr ⟨hcolon, by simpa using h, ?_⟩⟩
      have hall : ∀ o ∈ addr.splitOn '.', IsOctet o := by
        intro o ho
        have hoctet : isShortDecimal o = true ∧ decimalValue o ≤ 255 := by
          simp only [Bool.not_eq_true', Bool.not_eq_false, List.all_eq_true] at hoctets
          simpa using hoctets o ho
        exact ⟨hoctet.1, hoctet.2⟩
      have hdenotes := Denotes.dotted (addr.splitOn '.') (by simpa using hlength) hall
      have hjoined : dotted (addr.splitOn '.') = addr := List.intercalate_splitOn '.'
      rw [hjoined] at hdenotes
      exact ⟨_, hdenotes⟩

/-- A base that is no address text: no address is in the range. -/
theorem containedIn_eq_false {cidr : String} {addr prefixText : List Char} (ip : ParsedIp)
    (hsplit : splitAtFirst '/' cidr.toList = some (addr, prefixText))
    (hbase : parseIp addr = none) : containedIn ip cidr = false := by
  unfold containedIn
  simp only [hsplit, hbase]

/-- **When an accepted range is usable.**  Exactly when its base has no colon, or is an address
text.  No address is in one that is not. -/
theorem accepted_cidr_usable_iff {cidr : String} (h : isValidCidr cidr = true) :
    (Usable cidr ↔ ∀ addr prefixText, splitAtFirst '/' cidr.toList = some (addr, prefixText) →
      ':' ∈ addr → ∃ value, Denotes addr ⟨128, value⟩) ∧
    (¬ Usable cidr → ∀ ip, containedIn ip cidr = false) := by
  obtain ⟨addr, prefixText, hsplit, hshort, hkind⟩ := isValidCidr_cases h
  -- A range over an address contains its base.
  have hbase : ∀ base, Denotes addr base → decimalValue prefixText ≤ base.bits → Usable cidr := by
    intro base hdenotes hle
    have hparse := parseIp_iff.mpr hdenotes
    refine ⟨addr, prefixText, base, hsplit, hparse, hle, base, hdenotes.valid, ?_⟩
    exact (containedIn_iff hsplit hparse hshort hle hdenotes.valid).mpr ⟨rfl, rfl⟩
  refine ⟨?_, fun hunusable ip => ?_⟩
  swap
  · refine containedIn_eq_false ip hsplit ?_
    cases hparse : parseIp addr with
    | none => rfl
    | some base =>
      have hdenotes := parseIp_iff.mp hparse
      refine absurd (hbase base hdenotes ?_) hunusable
      rcases hkind with ⟨hcolon, hle⟩ | ⟨hcolon, hle, -⟩
      · rw [hdenotes.bits_of_colon hcolon]
        exact hle
      · rcases hdenotes.valid.bits with hbits | hbits <;> omega
  rcases hkind with ⟨hcolon, hle⟩ | ⟨hcolon, hle, value, hdenotes⟩
  · constructor
    · rintro ⟨addr', prefixText', base, hsplit', hparse, -, -⟩ addr'' prefixText'' hsplit'' hcolon''
      rw [hsplit'] at hsplit''
      obtain ⟨rfl, rfl⟩ := Prod.mk.inj (Option.some.inj hsplit'')
      have hdenotes := parseIp_iff.mp hparse
      have hbits := hdenotes.bits_of_colon hcolon''
      obtain ⟨bits, value⟩ := base
      obtain rfl : bits = 128 := hbits
      exact ⟨value, hdenotes⟩
    · intro haddress
      obtain ⟨value, hdenotes⟩ := haddress addr prefixText hsplit hcolon
      exact hbase _ hdenotes hle
  · constructor
    · intro _ addr' prefixText' hsplit' hcolon'
      rw [hsplit] at hsplit'
      obtain ⟨rfl, rfl⟩ := Prod.mk.inj (Option.some.inj hsplit')
      exact absurd hcolon' hcolon
    · intro _
      exact hbase _ hdenotes hle

/-- The range of loopback addresses. -/
theorem accepted_cidr_usable_loopback : Usable "::1/128" := by
  refine (accepted_cidr_usable_iff (by decide)).1.mpr fun addr prefixText hsplit _ => ?_
  have haddr : addr = "::1".toList := by
    have hpair := hsplit.symm.trans (show _ = some ("::1".toList, "128".toList) by decide)
    exact congrArg Prod.fst (Option.some.inj hpair)
  rw [haddr]
  exact ⟨1, parseIp_iff.mp (by decide)⟩

/-- The double colon forgotten: an accepted range that no address is in. -/
theorem not_accepted_cidr_usable :
    ¬ ∀ cidr, isValidCidr cidr = true → Usable cidr := by
  intro h
  obtain ⟨addr, prefixText, base, hsplit, hparse, -, -⟩ := h "2001:db8/32" (by decide)
  have haddr : addr = "2001:db8".toList := by
    have hpair := hsplit.symm.trans (show _ = some ("2001:db8".toList, "32".toList) by decide)
    exact congrArg Prod.fst (Option.some.inj hpair)
  have hnone : parseIp "2001:db8".toList = none := by decide
  rw [haddr, hnone] at hparse
  cases hparse

end AccessCore
