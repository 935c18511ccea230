/-
  Memo tables: a cache in front of a reading, keyed by something that may say less than the query.

  A `Memo key read` remembers readings of `read` under `key`.  Its fields say that every entry is
  the reading of some query with that key.  The crux is `fetch_fst`: when queries with one key have
  one reading (`Faithful`), reading through the table is reading directly, whatever it holds.
-/
import AccessCore.Lib.OrderedMap

/-- A cache of `read`, under `key`. -/
structure Memo {κ Q V : Type} (key : Q → κ) (read : Q → V) where
  entries : OrderedMap κ V
  keyed : (entries.map (·.1)).Nodup
  sound : ∀ e ∈ entries, ∃ q, e = (key q, read q)

namespace Memo

variable {κ Q V : Type} {key : Q → κ} {read : Q → V}

/-- Two queries with one key have one reading. -/
def Faithful (key : Q → κ) (read : Q → V) : Prop := ∀ q q', key q = key q' → read q = read q'

def empty : Memo key read := ⟨[], List.nodup_nil, fun _ he => absurd he List.not_mem_nil⟩

variable [DecidableEq κ]

def lookup (memo : Memo key read) (q : Q) : Option V := OrderedMap.get? memo.entries (key q)

/-- Remember a reading of a query. -/
def store (memo : Memo key read) (q : Q) (v : V) (hv : v = read q) : Memo key read where
  entries := OrderedMap.set memo.entries (key q) v
  keyed := OrderedMap.nodup_set memo.keyed _ _
  sound := by
    intro e he
    rcases OrderedMap.mem_set he with he | rfl
    · exact memo.sound e he
    · exact ⟨q, by rw [hv]⟩

/-- The remembered reading, or a new one that is then remembered. -/
def fetch (memo : Memo key read) (q : Q) : V × Memo key read :=
  match memo.lookup q with
  | some v => (v, memo)
  | none => (read q, memo.store q (read q) rfl)

variable {memo : Memo key read} {q : Q}

/-- What is remembered for a query is its reading. -/
theorem lookup_eq (hf : Faithful key read) {v : V} (h : memo.lookup q = some v) : v = read q := by
  obtain ⟨q', hq'⟩ := memo.sound _ (OrderedMap.mem_of_get? h)
  obtain ⟨hk, rfl⟩ := Prod.mk.inj hq'
  exact hf q' q hk.symm

theorem lookup_store (hf : Faithful key read) {v : V} (hv : v = read q) (q' : Q) :
    (memo.store q v hv).lookup q' = if key q = key q' then some (read q') else memo.lookup q' := by
  unfold lookup store
  rw [OrderedMap.get?_set]
  split_ifs with hk
  · rw [hv, hf q q' hk]
  · rfl

/-- **Reading through the table is reading directly.** -/
theorem fetch_fst (hf : Faithful key read) : (memo.fetch q).1 = read q := by
  unfold fetch
  cases h : memo.lookup q with
  | none => rfl
  | some v => exact lookup_eq hf h

/-- Nothing remembered is lost. -/
theorem lookup_store_mono (hf : Faithful key read) {w : V} (hw : w = read q) {q' : Q} {v : V}
    (h : memo.lookup q' = some v) : (memo.store q w hw).lookup q' = some v := by
  rw [lookup_store hf, lookup_eq hf h]
  split_ifs with hk
  · rfl
  · rw [h, lookup_eq hf h]

end Memo
