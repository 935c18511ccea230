/-
  Insertion-ordered maps, as a list of entries with distinct keys.

  `set` on a present key keeps the entry's position and replaces its value; on an absent key it
  appends.  Iteration order is therefore the order in which keys were first set.
-/
import Mathlib

/-- An insertion-ordered map. -/
abbrev OrderedMap (κ α : Type) := List (κ × α)

namespace OrderedMap

variable {κ α : Type} [DecidableEq κ]

/-- The value stored under `k`. -/
def get? : OrderedMap κ α → κ → Option α
  | [], _ => none
  | (k', v) :: m, k => if k' = k then some v else get? m k

/-- Store `v` under `k`, in place when `k` is present. -/
def set : OrderedMap κ α → κ → α → OrderedMap κ α
  | [], k, v => [(k, v)]
  | (k', v') :: m, k, v => if k' = k then (k', v) :: m else (k', v') :: set m k v

@[simp] theorem get?_nil (k : κ) : get? ([] : OrderedMap κ α) k = none := rfl

theorem get?_set (m : OrderedMap κ α) (k : κ) (v : α) (j : κ) :
    get? (set m k v) j = if k = j then some v else get? m j := by
  induction m with
  | nil => rfl
  | cons e m ih =>
    obtain ⟨k', v'⟩ := e
    by_cases hk : k' = k
    · subst hk
      by_cases hj : k' = j <;> simp [set, get?, hj]
    · by_cases hj : k' = j
      · subst hj
        have hkk : ¬ k = k' := fun h => hk h.symm
        simp [set, get?, hk, hkk]
      · simp [set, get?, hk, hj, ih]

theorem get?_append (m n : OrderedMap κ α) (k : κ) :
    get? (m ++ n) k = (get? m k).or (get? n k) := by
  induction m with
  | nil => rfl
  | cons e m ih =>
    obtain ⟨k', v⟩ := e
    by_cases hk : k' = k <;> simp [get?, hk, ih]

/-- A stored value is one of the entries. -/
theorem mem_of_get? {m : OrderedMap κ α} {k : κ} {v : α} (h : get? m k = some v) :
    (k, v) ∈ m := by
  induction m with
  | nil => simp at h
  | cons e m ih =>
    obtain ⟨k', v'⟩ := e
    by_cases hk : k' = k
    · simp only [get?, hk, if_true, Option.some.injEq] at h
      rw [hk, h]
      exact List.mem_cons_self ..
    · simp only [get?, hk, if_false] at h
      exact List.mem_cons_of_mem _ (ih h)

/-- With distinct keys, an entry is what its key stores. -/
theorem get?_of_mem {m : OrderedMap κ α} {e : κ × α} (hkeys : (m.map (·.1)).Nodup) (h : e ∈ m) :
    get? m e.1 = some e.2 := by
  induction m with
  | nil => exact absurd h List.not_mem_nil
  | cons e' m ih =>
    obtain ⟨hne, hkeys⟩ := List.nodup_cons.mp hkeys
    rcases List.mem_cons.mp h with rfl | h
    · simp [get?]
    · have hk : e'.1 ≠ e.1 := by
        intro hk
        exact hne (List.mem_map.mpr ⟨e, h, hk.symm⟩)
      rw [get?, if_neg hk]
      exact ih hkeys h

/-- Setting a key keeps the keys distinct. -/
theorem keys_set (m : OrderedMap κ α) (k : κ) (v : α) :
    (set m k v).map (·.1) = if k ∈ m.map (·.1) then m.map (·.1) else m.map (·.1) ++ [k] := by
  induction m with
  | nil => rfl
  | cons e m ih =>
    obtain ⟨k', v'⟩ := e
    by_cases hk : k' = k
    · simp [set, hk]
    · have hk' : ¬ k = k' := fun h => hk h.symm
      simp only [set, hk, if_false, List.map_cons, ih, List.mem_cons, hk', false_or]
      split_ifs <;> simp

theorem nodup_set {m : OrderedMap κ α} (hkeys : (m.map (·.1)).Nodup) (k : κ) (v : α) :
    ((set m k v).map (·.1)).Nodup := by
  rw [keys_set]
  split_ifs with h
  · exact hkeys
  · exact List.Nodup.append hkeys (List.nodup_singleton _) (by simpa using h)

/-- Setting a key adds at most the new entry. -/
theorem mem_set {m : OrderedMap κ α} {k : κ} {v : α} {e : κ × α} (h : e ∈ set m k v) :
    e ∈ m ∨ e = (k, v) := by
  induction m with
  | nil => exact Or.inr (List.mem_singleton.mp h)
  | cons e' m ih =>
    obtain ⟨k', v'⟩ := e'
    by_cases hk : k' = k
    · simp only [set, hk, if_true, List.mem_cons] at h
      rcases h with rfl | h
      · exact Or.inr rfl
      · exact Or.inl (List.mem_cons_of_mem _ h)
    · simp only [set, hk, if_false, List.mem_cons] at h
      rcases h with rfl | h
      · exact Or.inl (List.mem_cons_self ..)
      · exact (ih h).imp (List.mem_cons_of_mem _) id

theorem mem_set_self (m : OrderedMap κ α) (k : κ) (v : α) : (k, v) ∈ set m k v := by
  apply mem_of_get?
  rw [get?_set, if_pos rfl]

/-- Setting a key keeps the entries of the other keys. -/
theorem mem_set_of_mem {m : OrderedMap κ α} {k : κ} {v : α} {e : κ × α} (h : e ∈ m)
    (hne : e.1 ≠ k) : e ∈ set m k v := by
  induction m with
  | nil => exact absurd h List.not_mem_nil
  | cons e' m ih =>
    obtain ⟨k', v'⟩ := e'
    have hcases := List.mem_cons.mp h
    by_cases hk : k' = k
    · rcases hcases with rfl | h
      · exact absurd hk hne
      · simp [set, hk, h]
    · rcases hcases with rfl | h
      · simp [set, hk]
      · simp [set, hk, ih h]

end OrderedMap
