/-
  Keyed tables: rows in some order, no two with the same key.

  `upsert` is `INSERT … ON CONFLICT (key) DO UPDATE`: a row with the new row's key is merged with
  it in place, otherwise the new row is appended.  `delete` removes the rows that match.

  What a reader with a filter sees of a table is `select`.  The frame lemmas say when a change is
  invisible through a filter: `select_upsert` when neither the new row nor the row it replaces is
  selected, `select_delete` when no selected row matches.
-/
import Mathlib

/-- A table of rows with a key. -/
structure Table (ρ κ : Type) (key : ρ → κ) where
  rows : List ρ
  keyed : (rows.map key).Nodup

namespace Table

variable {ρ κ : Type} [DecidableEq κ] {key : ρ → κ}

def empty : Table ρ κ key := ⟨[], List.nodup_nil⟩

/-- The rows of an upsert: `merge old new` replaces a row with the key of `new`. -/
def upsertRows (key : ρ → κ) (merge : ρ → ρ → ρ) (new : ρ) : List ρ → List ρ
  | [] => [new]
  | old :: rows =>
    if key old = key new then merge old new :: rows else old :: upsertRows key merge new rows

/-- A merge of two rows with one key keeps the key. -/
def KeepsKey (key : ρ → κ) (merge : ρ → ρ → ρ) : Prop :=
  ∀ old new, key old = key new → key (merge old new) = key new

theorem keys_upsertRows {merge : ρ → ρ → ρ} (hmerge : KeepsKey key merge) {new : ρ} :
    ∀ rows : List ρ, (upsertRows key merge new rows).map key =
      if key new ∈ rows.map key then rows.map key else rows.map key ++ [key new] := by
  intro rows
  induction rows with
  | nil => simp [upsertRows]
  | cons old rows ih =>
    by_cases hk : key old = key new
    · simp [upsertRows, hk, hmerge old new hk]
    · have hk' : ¬ key new = key old := fun h => hk h.symm
      simp only [upsertRows, hk, if_false, List.map_cons, ih, List.mem_cons, hk', false_or]
      split_ifs <;> simp

def upsert (table : Table ρ κ key) (merge : ρ → ρ → ρ) (hmerge : KeepsKey key merge) (new : ρ) :
    Table ρ κ key where
  rows := upsertRows key merge new table.rows
  keyed := by
    rw [keys_upsertRows hmerge]
    split_ifs with h
    · exact table.keyed
    · exact List.Nodup.append table.keyed (List.nodup_singleton _) (by simpa using h)

def delete (table : Table ρ κ key) (p : ρ → Bool) : Table ρ κ key where
  rows := table.rows.filter fun row => !p row
  keyed := table.keyed.sublist (List.filter_sublist.map key)

def select (table : Table ρ κ key) (p : ρ → Bool) : List ρ := table.rows.filter p

/-! ## Membership -/

theorem mem_upsertRows {merge : ρ → ρ → ρ} {new row : ρ} {rows : List ρ}
    (h : row ∈ upsertRows key merge new rows) :
    row = new ∨ (∃ old ∈ rows, key old = key new ∧ row = merge old new) ∨ row ∈ rows := by
  induction rows with
  | nil => exact Or.inl (List.mem_singleton.mp h)
  | cons old rows ih =>
    by_cases hk : key old = key new
    · simp only [upsertRows, hk, if_true, List.mem_cons] at h
      rcases h with rfl | h
      · exact Or.inr (Or.inl ⟨old, List.mem_cons_self .., hk, rfl⟩)
      · exact Or.inr (Or.inr (List.mem_cons_of_mem _ h))
    · simp only [upsertRows, hk, if_false, List.mem_cons] at h
      rcases h with rfl | h
      · exact Or.inr (Or.inr (List.mem_cons_self ..))
      · rcases ih h with h | ⟨o, ho, h⟩ | h
        · exact Or.inl h
        · exact Or.inr (Or.inl ⟨o, List.mem_cons_of_mem _ ho, h⟩)
        · exact Or.inr (Or.inr (List.mem_cons_of_mem _ h))

omit [DecidableEq κ] in
/-- Two rows of a table with one key are the same row. -/
theorem eq_of_key {table : Table ρ κ key} {row row' : ρ} (h : row ∈ table.rows)
    (h' : row' ∈ table.rows) (hk : key row = key row') : row = row' :=
  List.inj_on_of_nodup_map table.keyed h h' hk

/-! ## The row of a key -/

def get (table : Table ρ κ key) (k : κ) : Option ρ := table.rows.find? fun row => key row = k

theorem mem_of_get {table : Table ρ κ key} {k : κ} {row : ρ} (h : table.get k = some row) :
    row ∈ table.rows ∧ key row = k :=
  ⟨List.mem_of_find?_eq_some h, by simpa using List.find?_some h⟩

theorem get_eq_none {table : Table ρ κ key} {k : κ} :
    table.get k = none ↔ ∀ row ∈ table.rows, key row ≠ k := by
  simp [get]

theorem get_of_mem {table : Table ρ κ key} {row : ρ} (h : row ∈ table.rows) :
    table.get (key row) = some row := by
  cases hget : table.get (key row) with
  | none => exact absurd rfl (get_eq_none.mp hget row h)
  | some row' =>
    obtain ⟨hmem, hkey⟩ := mem_of_get hget
    rw [eq_of_key hmem h hkey]

theorem find_upsertRows {merge : ρ → ρ → ρ} (hmerge : KeepsKey key merge) {new : ρ} {k : κ} :
    ∀ rows : List ρ, (upsertRows key merge new rows).find? (fun row => key row = k) =
      if k = key new then
        some (((rows.find? fun row => key row = k).map (merge · new)).getD new)
      else rows.find? fun row => key row = k := by
  intro rows
  induction rows with
  | nil =>
    by_cases hk : k = key new
    · simp [upsertRows, hk]
    · have hk' : ¬ key new = k := fun h => hk h.symm
      simp [upsertRows, hk, hk']
  | cons old rows ih =>
    by_cases hold : key old = key new
    · have hkey := hmerge old new hold
      by_cases hk : k = key new
      · simp [upsertRows, hold, hk, hkey]
      · have hk' : ¬ key new = k := fun h => hk h.symm
        simp [upsertRows, hold, hk, hk', hkey]
    · by_cases hk : key old = k
      · have hk' : ¬ k = key new := fun h => hold (hk.trans h)
        simp [upsertRows, hk, hk']
      · simp [upsertRows, hold, hk, ih]

/-- Reading after an upsert: the merged row under its key, and every other key as before. -/
theorem get_upsert {table : Table ρ κ key} {merge : ρ → ρ → ρ} (hmerge : KeepsKey key merge)
    {new : ρ} (k : κ) :
    (table.upsert merge hmerge new).get k =
      if k = key new then some (((table.get k).map (merge · new)).getD new) else table.get k :=
  find_upsertRows hmerge table.rows

/-- The upsert that replaces the row. -/
def overwrite (table : Table ρ κ key) (new : ρ) : Table ρ κ key :=
  table.upsert (fun _ new => new) (fun _ _ _ => rfl) new

theorem get_overwrite {table : Table ρ κ key} {new : ρ} (k : κ) :
    (table.overwrite new).get k = if k = key new then some new else table.get k := by
  refine (get_upsert _ k).trans ?_
  cases table.get k <;> rfl

/-- Reading after a deletion: the row, unless it matched. -/
theorem get_delete {table : Table ρ κ key} {p : ρ → Bool} (k : κ) :
    (table.delete p).get k = (table.get k).filter fun row => !p row := by
  cases hget : table.get k with
  | none =>
    have hnone := get_eq_none.mp hget
    exact get_eq_none.mpr fun row hrow => hnone row (List.mem_of_mem_filter hrow)
  | some row =>
    obtain ⟨hmem, rfl⟩ := mem_of_get hget
    by_cases hp : p row = true
    · rw [Option.filter_some, if_neg (by simp [hp])]
      refine get_eq_none.mpr fun row' hrow' hkey => ?_
      obtain ⟨hmem', hkept⟩ := List.mem_filter.mp hrow'
      rw [eq_of_key hmem' hmem hkey, hp] at hkept
      cases hkept
    · have hkept : row ∈ (table.delete p).rows := List.mem_filter.mpr ⟨hmem, by simp [hp]⟩
      rw [get_of_mem hkept, Option.filter_some, if_pos (by simp [hp])]

/-! ## Changing rows in place -/

/-- `UPDATE … WHERE`: the rows that match, changed without changing their keys. -/
def update (table : Table ρ κ key) (p : ρ → Bool) (change : ρ → ρ)
    (hchange : ∀ row, key (change row) = key row) : Table ρ κ key where
  rows := table.rows.map fun row => if p row then change row else row
  keyed := by
    have hkeys : (table.rows.map fun row => if p row then change row else row).map key =
        table.rows.map key := by
      rw [List.map_map]
      apply List.map_congr_left
      intro row _
      show key (if p row then change row else row) = key row
      split_ifs
      · exact hchange row
      · rfl
    rw [hkeys]
    exact table.keyed

theorem get_update {table : Table ρ κ key} {p : ρ → Bool} {change : ρ → ρ}
    (hchange : ∀ row, key (change row) = key row) (k : κ) :
    (table.update p change hchange).get k =
      (table.get k).map fun row => if p row then change row else row := by
  have hkey : ∀ row, key (if p row then change row else row) = key row := by
    intro row
    split_ifs
    · exact hchange row
    · rfl
  show (table.rows.map _).find? _ = _
  rw [List.find?_map, get]
  congr 1
  exact List.find?_congr fun row _ => by simp only [Function.comp, hkey]

/-- An update changes a row that matches. -/
theorem get_update_of_match {table : Table ρ κ key} {p : ρ → Bool} {change : ρ → ρ}
    (hchange : ∀ row, key (change row) = key row) {k : κ} {row : ρ} (h : table.get k = some row)
    (hp : p row = true) : (table.update p change hchange).get k = some (change row) := by
  rw [get_update, h, Option.map_some, if_pos hp]

/-- An update leaves a row alone that does not match. -/
theorem get_update_of_not {table : Table ρ κ key} {p : ρ → Bool} {change : ρ → ρ}
    (hchange : ∀ row, key (change row) = key row) {k : κ}
    (h : ∀ row ∈ table.get k, p row = false) :
    (table.update p change hchange).get k = table.get k := by
  rw [get_update]
  cases hk : table.get k with
  | none => rfl
  | some row =>
    have hp := h row hk
    rw [Option.map_some, if_neg (by simp [hp])]

theorem rows_upsert_of_get_none {table : Table ρ κ key} {merge : ρ → ρ → ρ}
    (hmerge : KeepsKey key merge) {new : ρ} (h : table.get (key new) = none) :
    (table.upsert merge hmerge new).rows = table.rows ++ [new] := by
  have hfresh := get_eq_none.mp h
  show upsertRows key merge new table.rows = _
  generalize table.rows = rows at hfresh
  induction rows with
  | nil => rfl
  | cons old rows ih =>
    rw [upsertRows, if_neg (hfresh old (List.mem_cons_self ..)),
      ih fun row hrow => hfresh row (List.mem_cons_of_mem _ hrow)]
    rfl

/-- An upsert over a row of the key merges it in its place. -/
theorem rows_upsert_of_get {table : Table ρ κ key} {merge : ρ → ρ → ρ}
    (hmerge : KeepsKey key merge) {new row : ρ} (h : table.get (key new) = some row) :
    (table.upsert merge hmerge new).rows =
      table.rows.map fun old => if key old = key new then merge old new else old := by
  obtain ⟨hmem, hkey⟩ := mem_of_get h
  have hkeyed := table.keyed
  show upsertRows key merge new table.rows = _
  generalize table.rows = rows at hmem hkeyed
  induction rows with
  | nil => cases hmem
  | cons old rows ih =>
    obtain ⟨hne, hkeyed⟩ := List.nodup_cons.mp hkeyed
    by_cases hold : key old = key new
    · -- no other row has the key
      have hothers : ∀ other ∈ rows, key other ≠ key new := fun other hother heq =>
        hne (List.mem_map.mpr ⟨other, hother, heq.trans hold.symm⟩)
      have hrest : (rows.map fun old =>
          if key old = key new then merge old new else old) = rows := by
        calc (rows.map fun old => if key old = key new then merge old new else old)
          _ = rows.map id := List.map_congr_left fun other hother => if_neg (hothers other hother)
          _ = rows := List.map_id rows
      rw [upsertRows, if_pos hold, List.map_cons, if_pos hold, hrest]
    · rcases List.mem_cons.mp hmem with rfl | hmem
      · exact absurd hkey hold
      · rw [upsertRows, if_neg hold, List.map_cons, if_neg hold, ih hmem hkeyed]

theorem select_upsert_of_get_none {table : Table ρ κ key} {merge : ρ → ρ → ρ}
    (hmerge : KeepsKey key merge) {new : ρ} (h : table.get (key new) = none) (p : ρ → Bool) :
    (table.upsert merge hmerge new).select p = table.select p ++ if p new then [new] else [] := by
  unfold select
  rw [rows_upsert_of_get_none hmerge h, List.filter_append]
  congr 1
  by_cases hp : p new = true
  · simp [hp]
  · simp [hp]

/-! ## Rows over time -/

/-- Every row is still there under its key, related to what it was. -/
def Evolves (R : ρ → ρ → Prop) (table table' : Table ρ κ key) : Prop :=
  ∀ k row, table.get k = some row → ∃ row', table'.get k = some row' ∧ R row row'

namespace Evolves

variable {R : ρ → ρ → Prop}

theorem refl (hR : ∀ row, R row row) (table : Table ρ κ key) : Evolves R table table :=
  fun _ row hrow => ⟨row, hrow, hR row⟩

theorem mem {table table' : Table ρ κ key} (h : Evolves R table table') {row : ρ}
    (hrow : row ∈ table.rows) : ∃ row' ∈ table'.rows, key row' = key row ∧ R row row' := by
  obtain ⟨row', hget, hR⟩ := h _ row (get_of_mem hrow)
  obtain ⟨hmem, hkey⟩ := mem_of_get hget
  exact ⟨row', hmem, hkey, hR⟩

theorem trans {a b c : Table ρ κ key} (hab : Evolves R a b) (hbc : Evolves R b c)
    (hR : ∀ {a b c}, R a b → R b c → R a c) : Evolves R a c := by
  intro k row hrow
  obtain ⟨row', hrow', h⟩ := hab k row hrow
  obtain ⟨row'', hrow'', h'⟩ := hbc k row' hrow'
  exact ⟨row'', hrow'', hR h h'⟩

theorem update {table : Table ρ κ key} {p : ρ → Bool} {change : ρ → ρ}
    (hchange : ∀ row, key (change row) = key row) (hR : ∀ row, R row row)
    (h : ∀ row, p row = true → R row (change row)) :
    Evolves R table (table.update p change hchange) := by
  intro k row hrow
  refine ⟨_, by rw [get_update, hrow, Option.map_some], ?_⟩
  show R row (if p row then change row else row)
  split_ifs with hp
  · exact h row hp
  · exact hR row

/-- An upsert of a row whose key is not taken. -/
theorem insert {table : Table ρ κ key} {merge : ρ → ρ → ρ} (hmerge : KeepsKey key merge)
    (hR : ∀ row, R row row) {new : ρ} (h : table.get (key new) = none) :
    Evolves R table (table.upsert merge hmerge new) := by
  intro k row hrow
  refine ⟨row, ?_, hR row⟩
  have hne : k ≠ key new := by
    rintro rfl
    rw [h] at hrow
    cases hrow
  rw [get_upsert, if_neg hne, hrow]

end Evolves

/-! ## Frames -/

/-- An upsert is invisible through a filter that selects neither the new row nor the row with its
    key, before or after the merge. -/
theorem select_upsert {table : Table ρ κ key} {merge : ρ → ρ → ρ} (hmerge : KeepsKey key merge)
    {new : ρ} {p : ρ → Bool} (hnew : p new = false)
    (hold : ∀ old ∈ table.rows, key old = key new → p old = false ∧ p (merge old new) = false) :
    (table.upsert merge hmerge new).select p = table.select p := by
  show (upsertRows key merge new table.rows).filter p = table.rows.filter p
  generalize table.rows = rows at hold
  induction rows with
  | nil => simp [upsertRows, hnew]
  | cons old rows ih =>
    by_cases hk : key old = key new
    · obtain ⟨h₁, h₂⟩ := hold old (List.mem_cons_self ..) hk
      simp [upsertRows, hk, h₁, h₂]
    · have hrest := ih fun o ho => hold o (List.mem_cons_of_mem _ ho)
      simp only [upsertRows, hk, if_false, List.filter_cons, hrest]

/-- An upsert whose rows are outside a filter takes the row it replaces out of it. -/
theorem select_upsert_out {table : Table ρ κ key} {merge : ρ → ρ → ρ}
    (hmerge : KeepsKey key merge) {new : ρ} {p : ρ → Bool} (hnew : p new = false)
    (hout : ∀ old, p (merge old new) = false) :
    (table.upsert merge hmerge new).select p =
      (table.select p).filter fun row => key row ≠ key new := by
  show (upsertRows key merge new table.rows).filter p = (table.rows.filter p).filter _
  have hkeyed := table.keyed
  generalize table.rows = rows at hkeyed
  induction rows with
  | nil => simp [upsertRows, hnew]
  | cons old rows ih =>
    obtain ⟨hne, hkeyed⟩ := List.nodup_cons.mp hkeyed
    by_cases hk : key old = key new
    · -- no other row has the key, so nothing else is taken out
      have hothers : ∀ row ∈ rows, key row ≠ key new := fun row hrow hkey =>
        hne (List.mem_map.mpr ⟨row, hrow, hkey.trans hk.symm⟩)
      have hrest : (rows.filter p).filter (fun row => key row ≠ key new) = rows.filter p := by
        rw [List.filter_eq_self]
        intro row hrow
        simpa using hothers row (List.mem_of_mem_filter hrow)
      rw [upsertRows, if_pos hk, List.filter_cons, hout old, List.filter_cons]
      by_cases hp : p old = true
      · simpa [hp, hk] using hrest.symm
      · simpa [hp] using hrest.symm
    · rw [upsertRows, if_neg hk, List.filter_cons, List.filter_cons, ih hkeyed]
      by_cases hp : p old = true
      · simp [hp, hk]
      · simp [hp]

omit [DecidableEq κ] in
/-- A deletion is invisible through a filter that selects none of the deleted rows. -/
theorem select_delete {table : Table ρ κ key} {p q : ρ → Bool}
    (h : ∀ row ∈ table.rows, p row = true → q row = false) :
    (table.delete q).select p = table.select p := by
  show (table.rows.filter _).filter p = table.rows.filter p
  rw [List.filter_filter]
  apply List.filter_congr
  intro row hrow
  by_cases hp : p row = true
  · simp [hp, h row hrow hp]
  · simp [hp]

end Table
