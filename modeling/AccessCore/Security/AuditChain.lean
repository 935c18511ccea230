/-
  The audit chain (`security/domain/audit-chain.ts`).

  A record is hashed as a canonical text: `canonicalize` writes a value with the keys of every
  object sorted, and `hashRecord` hashes the digest before it, a line break and that text.
  `canonicalize` is written for any JavaScript value; on a JSON value it is `JSON.stringify` of
  the value with sorted keys (`canonicalize_ofJson`), so two JSON values have one canonical text
  exactly when they differ in key order only.

  For tamper evidence a record is a block of a hash chain whose content is the canonical text.
  Injectivity of the link needs that a digest has no line break, which makes the first line break
  of a hashed text the end of the digest, and that canonical texts have no lone surrogate, since a
  hash reads its text as UTF-8.
-/
import AccessCore.Lib.Json
import AccessCore.Lib.HashChain

namespace AccessCore

open JsString

/-! ## JavaScript values -/

/-- A value of type `unknown`, as far as `canonicalize` and `JSON.stringify` can tell values
apart.  A `bigint` is left out: `JSON.stringify` throws on it. -/
inductive JsValue where
  | undefined
  | null
  | bool (value : Bool)
  /-- A number; `none` for `NaN` and the infinities. -/
  | number (value : Option JsonNumber)
  | string (value : JsString)
  /-- A function or a symbol. -/
  | callable
  /-- An array; `none` for a hole. -/
  | array (items : List (Option JsValue))
  /-- An object, by its own enumerable string keys. -/
  | object (entries : List (JsString × JsValue))
  /-- An object that `JSON.stringify` replaces: one with a `toJSON` method, or a boxed value. -/
  | replaced (entries : List (JsString × JsValue)) (json : Option Json)

mutual
/-- `canonicalize`; `none` where the function returns `undefined`, which `JSON.stringify` gives
for a function.  The keys are sorted after the entries are written, by the keys alone. -/
def canonicalize : JsValue → Option JsString
  | .undefined => some (ascii "null")
  | .null => some (ascii "null")
  | .bool true => some (ascii "true")
  | .bool false => some (ascii "false")
  | .number (some n) => some n.text
  | .number none => some (ascii "null")
  | .string s => some (quote s)
  | .callable => none
  | .array items => some (91 :: (commas (canonicalizeItems items) ++ [93]))
  | .object entries =>
    some (123 :: (commas ((sortByKey (canonicalizeEntries entries)).map (·.2)) ++ [125]))
  | .replaced entries _ =>
    some (123 :: (commas ((sortByKey (canonicalizeEntries entries)).map (·.2)) ++ [125]))
/-- `value.map(canonicalize)` as `join` reads it: holes and `undefined` are written as nothing. -/
def canonicalizeItems : List (Option JsValue) → List JsString
  | [] => []
  | none :: items => [] :: canonicalizeItems items
  | some item :: items => (canonicalize item).getD [] :: canonicalizeItems items
/-- Every key with the text of its entry. -/
def canonicalizeEntries : List (JsString × JsValue) → List (JsString × JsString)
  | [] => []
  | (key, value) :: entries =>
    (key, quote key ++ 58 :: (canonicalize value).getD (ascii "undefined")) ::
      canonicalizeEntries entries
end

/-! ## JSON values -/

mutual
/-- A JSON value as `JSON.parse` builds it. -/
def JsValue.ofJson : Json → JsValue
  | .null => .null
  | .bool value => .bool value
  | .number value => .number (some value)
  | .string value => .string value
  | .array items => .array (ofJsonItems items)
  | .object entries => .object (ofJsonEntries entries)
def ofJsonItems : List Json → List (Option JsValue)
  | [] => []
  | item :: items => some (JsValue.ofJson item) :: ofJsonItems items
def ofJsonEntries : List (JsString × Json) → List (JsString × JsValue)
  | [] => []
  | (key, value) :: entries => (key, JsValue.ofJson value) :: ofJsonEntries entries
end

theorem canonicalizeItems_ofJson {items : List Json}
    (h : ∀ item ∈ items, canonicalize (.ofJson item) = some item.sortKeys.stringify) :
    canonicalizeItems (ofJsonItems items) = items.map fun item => item.sortKeys.stringify := by
  induction items with
  | nil => rfl
  | cons item items ih =>
    have hitem := h item List.mem_cons_self
    have hitems := ih fun i hi => h i (List.mem_cons_of_mem _ hi)
    rw [ofJsonItems, canonicalizeItems, hitem, hitems, List.map_cons, Option.getD_some]

theorem canonicalizeEntries_ofJson {entries : List (JsString × Json)}
    (h : ∀ e ∈ entries, canonicalize (.ofJson e.2) = some e.2.sortKeys.stringify) :
    canonicalizeEntries (ofJsonEntries entries) =
      entries.map fun e => (e.1, quote e.1 ++ 58 :: e.2.sortKeys.stringify) := by
  induction entries with
  | nil => rfl
  | cons e entries ih =>
    have he := h e List.mem_cons_self
    have hentries := ih fun i hi => h i (List.mem_cons_of_mem _ hi)
    rw [ofJsonEntries, canonicalizeEntries, he, hentries, List.map_cons, Option.getD_some]

/-- On a JSON value, `canonicalize` is `JSON.stringify` after sorting the keys. -/
theorem canonicalize_ofJson (j : Json) :
    canonicalize (.ofJson j) = some j.sortKeys.stringify := by
  induction j with
  | null => rfl
  | bool b => cases b <;> rfl
  | number n => rfl
  | string s => rfl
  | array items ih =>
    rw [JsValue.ofJson, canonicalize, canonicalizeItems_ofJson ih, Json.sortKeys_array,
      Json.stringify, Json.stringifyItems_eq, List.map_map]
    rfl
  | object entries ih =>
    rw [JsValue.ofJson, canonicalize, canonicalizeEntries_ofJson ih,
      sortByKey_map fun e : JsString × Json => quote e.1 ++ 58 :: e.2.sortKeys.stringify,
      Json.sortKeys_object, Json.stringify, Json.stringifyEntries_eq, List.map_map, List.map_map]
    rfl

/-- The order of keys is not hashed. -/
theorem canonicalize_keyOrder {a b : Json} (ha : a.distinctKeys = true) (h : Json.KeyOrder a b) :
    canonicalize (.ofJson a) = canonicalize (.ofJson b) := by
  rw [canonicalize_ofJson, canonicalize_ofJson, h.sortKeys_eq ha]

/-- One canonical text for each class of JSON values that differ in key order only. -/
theorem canonicalize_ofJson_eq {a b : Json} (ha : a.distinctKeys = true) :
    canonicalize (.ofJson a) = canonicalize (.ofJson b) ↔ Json.KeyOrder a b := by
  constructor
  · intro h
    rw [canonicalize_ofJson, canonicalize_ofJson] at h
    -- The texts are equal, so the sorted values are.
    have hsorted : a.sortKeys = b.sortKeys := Json.stringify_inj (Option.some.inj h)
    exact (Json.sortKeys_eq_iff ha).mp hsorted
  · exact canonicalize_keyOrder ha

/-- `{"b": [true, null], "a": {}}`. -/
def nestedJson : Json :=
  .object [(ascii "b", .array [.bool true, .null]), (ascii "a", .object [])]

theorem canonicalize_ofJson_eq_nested :
    canonicalize (.ofJson nestedJson) =
        canonicalize (.ofJson (.object [(ascii "a", .object []),
          (ascii "b", .array [.bool true, .null])])) ∧
      canonicalize (.ofJson nestedJson) ≠
        canonicalize (.ofJson (.object [(ascii "b", .array [.bool true]),
          (ascii "a", .null)])) := by
  have hkeys : nestedJson.distinctKeys = true := by decide
  constructor
  · exact (canonicalize_ofJson_eq hkeys).mpr (.swap (List.Perm.swap _ _ _))
  · rw [canonicalize_ofJson, canonicalize_ofJson]
    decide

/-! ## Dates -/

/-- The number of days of a month of the proleptic Gregorian calendar, January being `0`. -/
def daysInMonth (year : Int) (month : Nat) : Nat :=
  if month = 1 then
    if year % 4 = 0 ∧ (year % 100 ≠ 0 ∨ year % 400 = 0) then 29 else 28
  else if month = 3 ∨ month = 5 ∨ month = 8 ∨ month = 10 then 30
  else 31

/-- A valid `Date`, by its fields in UTC. -/
structure JsDate where
  year : Int
  month : Fin 12
  day : Nat
  hour : Fin 24
  minute : Fin 60
  second : Fin 60
  millisecond : Fin 1000
  year_range : -271821 ≤ year ∧ year ≤ 275760
  day_range : 1 ≤ day ∧ day ≤ daysInMonth year month
deriving DecidableEq

theorem daysInMonth_le (year : Int) (month : Nat) : daysInMonth year month ≤ 31 := by
  unfold daysInMonth
  split_ifs <;> omega

/-- The last `width` decimal digits of `n`. -/
def digits : Nat → Nat → JsString
  | 0, _ => []
  | width + 1, n => digits width (n / 10) ++ [Fin.ofNat 65536 (48 + n % 10)]

@[simp] theorem digits_length (width n : Nat) : (digits width n).length = width := by
  induction width generalizing n with
  | zero => rfl
  | succ width ih => rw [digits, List.length_append, ih, List.length_singleton]

theorem digits_inj {width m n : Nat} (hm : m < 10 ^ width) (hn : n < 10 ^ width)
    (h : digits width m = digits width n) : m = n := by
  induction width generalizing m n with
  | zero => omega
  | succ width ih =>
    rw [digits, digits] at h
    have hlen : (digits width (m / 10)).length = (digits width (n / 10)).length := by simp
    obtain ⟨hinit, hlast⟩ := List.append_inj h hlen
    rw [Nat.pow_succ] at hm hn
    have htens : m / 10 = n / 10 := ih (by omega) (by omega) hinit
    have hunit : (48 + m % 10) % 65536 = (48 + n % 10) % 65536 := by
      simpa [Fin.ofNat] using hlast
    omega

/-- Years outside `0..9999` are written with a sign and six digits. -/
def isoYear (year : Int) : JsString :=
  if 0 ≤ year ∧ year ≤ 9999 then digits 4 year.toNat
  else (if year < 0 then 45 else 43) :: digits 6 year.natAbs

/-- `toISOString`. -/
def toISOString (d : JsDate) : JsString :=
  isoYear d.year ++ (45 :: digits 2 (d.month.val + 1)) ++ (45 :: digits 2 d.day) ++
    (84 :: digits 2 d.hour.val) ++ (58 :: digits 2 d.minute.val) ++
    (58 :: digits 2 d.second.val) ++ (46 :: digits 3 d.millisecond.val) ++ [90]

theorem isoYear_inj {y z : Int} (hy : -271821 ≤ y ∧ y ≤ 275760) (hz : -271821 ≤ z ∧ z ≤ 275760)
    (h : isoYear y = isoYear z) : y = z := by
  unfold isoYear at h
  by_cases hy4 : 0 ≤ y ∧ y ≤ 9999
  · by_cases hz4 : 0 ≤ z ∧ z ≤ 9999
    · rw [if_pos hy4, if_pos hz4] at h
      have hyz : y.toNat = z.toNat := digits_inj (by omega) (by omega) h
      omega
    · -- four units against seven
      rw [if_pos hy4, if_neg hz4] at h
      have hlen := congrArg List.length h
      simp at hlen
  · by_cases hz4 : 0 ≤ z ∧ z ≤ 9999
    · rw [if_neg hy4, if_pos hz4] at h
      have hlen := congrArg List.length h
      simp at hlen
    · rw [if_neg hy4, if_neg hz4] at h
      obtain ⟨hsign, hdigits⟩ := List.cons.inj h
      have habs : y.natAbs = z.natAbs := digits_inj (by omega) (by omega) hdigits
      have hneg : y < 0 ↔ z < 0 := by
        by_cases hy0 : y < 0
        · by_cases hz0 : z < 0
          · simp [hy0, hz0]
          · simp [hy0, hz0] at hsign
        · by_cases hz0 : z < 0
          · simp [hy0, hz0] at hsign
          · simp [hy0, hz0]
      omega

/-- The text determines the date. -/
theorem toISOString_inj {a b : JsDate} (h : toISOString a = toISOString b) : a = b := by
  have hlen := congrArg List.length h
  simp only [toISOString, List.length_append, List.length_cons, digits_length,
    List.length_nil] at hlen
  have hyearLen : (isoYear a.year).length = (isoYear b.year).length := by omega
  simp only [toISOString, List.append_assoc] at h
  obtain ⟨hyear, h⟩ := List.append_inj h hyearLen
  obtain ⟨hmonth, h⟩ := List.append_inj h (by simp)
  obtain ⟨hday, h⟩ := List.append_inj h (by simp)
  obtain ⟨hhour, h⟩ := List.append_inj h (by simp)
  obtain ⟨hminute, h⟩ := List.append_inj h (by simp)
  obtain ⟨hsecond, h⟩ := List.append_inj h (by simp)
  obtain ⟨hmilli, -⟩ := List.append_inj h (by simp)
  have ha31 := daysInMonth_le a.year a.month
  have hb31 := daysInMonth_le b.year b.month
  have haday := a.day_range.2
  have hbday := b.day_range.2
  have eyear := isoYear_inj a.year_range b.year_range hyear
  have emonth := digits_inj (by omega) (by omega) (List.cons.inj hmonth).2
  have eday := digits_inj (by omega) (by omega) (List.cons.inj hday).2
  have ehour := digits_inj (by omega) (by omega) (List.cons.inj hhour).2
  have eminute := digits_inj (by omega) (by omega) (List.cons.inj hminute).2
  have esecond := digits_inj (by omega) (by omega) (List.cons.inj hsecond).2
  have emilli := digits_inj (by omega) (by omega) (List.cons.inj hmilli).2
  have emonth' : a.month = b.month := Fin.ext (by omega)
  cases a
  cases b
  simp only [JsDate.mk.injEq]
  exact ⟨eyear, emonth', eday, Fin.ext ehour, Fin.ext eminute, Fin.ext esecond, Fin.ext emilli⟩

/-! ## Records and their hashes -/

/-- `sha256(...).digest('hex')`: a text of hexadecimal digits. -/
structure Digest where
  text : JsString
  hex : text.all fun u => decide (48 ≤ u.val ∧ u.val ≤ 57) || decide (97 ≤ u.val ∧ u.val ≤ 102)
deriving DecidableEq

/-- `GENESIS_HASH`. -/
def genesisHash : Digest := ⟨List.replicate 64 48, by decide⟩

/-- An event, its payload being of type `π`, with the time it was recorded at. -/
structure HashableRecord (π : Type) where
  type : JsString
  orgId : Option JsString
  subject : Option JsString
  payload : π
  recordedAt : JsDate

/-- `string | null`. -/
def nullable : Option JsString → Json
  | some s => .string s
  | none => .null

/-- The entries that every record has, beside its payload. -/
def recordEntries {π α : Type} (json : Json → α) (payload : π → α) (record : HashableRecord π) :
    List (JsString × α) :=
  [(ascii "type", json (.string record.type)),
    (ascii "orgId", json (nullable record.orgId)),
    (ascii "subject", json (nullable record.subject)),
    (ascii "payload", payload record.payload),
    (ascii "recordedAt", json (.string (toISOString record.recordedAt)))]

/-- The payload of an event: a `Record<string, unknown>`. -/
abbrev JsObject := List (JsString × JsValue)

/-- `hashRecord`. -/
def hashRecord (sha256 : JsString → Digest) (prevHash : Digest)
    (record : HashableRecord JsObject) : Digest :=
  let canonical := canonicalize (.object (recordEntries .ofJson .object record))
  sha256 (prevHash.text ++ 10 :: canonical.getD (ascii "undefined"))

structure ChainVerification where
  ok : Bool
  length : Nat
  brokenAt : Option Nat
deriving DecidableEq

/-- A record with its `hash`. -/
structure AuditRecord (π : Type) extends HashableRecord π where
  hash : Digest

/-- The loop of `verifyChain`, `index` records in, `previous` being the digest before. -/
def verifyFrom (sha256 : JsString → Digest) (length : Nat) :
    Nat → Digest → List (AuditRecord JsObject) → ChainVerification
  | _, _, [] => ⟨true, length, none⟩
  | index, previous, record :: records =>
    if hashRecord sha256 previous record.toHashableRecord ≠ record.hash then
      ⟨false, length, some index⟩
    else verifyFrom sha256 length (index + 1) record.hash records

def verifyChain (sha256 : JsString → Digest) (records : List (AuditRecord JsObject)) :
    ChainVerification :=
  verifyFrom sha256 records.length 0 genesisHash records

/-! ## Records with JSON payloads -/

/-- A JSON object, no object in which repeats a key. -/
structure JsonObject where
  entries : List (JsString × Json)
  distinct : (Json.object entries).distinctKeys = true

def JsonObject.toJs (payload : JsonObject) : JsObject := ofJsonEntries payload.entries

/-- The record as it is hashed and verified. -/
def AuditRecord.toJs (record : AuditRecord JsonObject) : AuditRecord JsObject :=
  ⟨⟨record.type, record.orgId, record.subject, record.payload.toJs, record.recordedAt⟩,
    record.hash⟩

/-- The JSON value whose canonical text is hashed. -/
def recordJson (record : HashableRecord JsonObject) : Json :=
  .object (recordEntries id (fun payload => .object payload.entries) record)

/-- A text that can be hashed behind a digest: one line, without lone surrogates. -/
def Line : Type := {text : JsString // wellFormed text = true ∧ ∀ u ∈ text, 32 ≤ u.val}

instance : DecidableEq Line := inferInstanceAs (DecidableEq {_text : JsString // _})

/-- A written JSON value is such a text. -/
def lineOf (j : Json) : Line := ⟨j.stringify, j.wellFormed_stringify, fun _ => Json.mem_stringify⟩

/-- The digest of a line behind a digest. -/
def linkLine (sha256 : JsString → Digest) (prev : Digest) (line : Line) : Digest :=
  sha256 (prev.text ++ 10 :: line.val)

/-- The record as a block: its canonical text and its hash. -/
def blockOf (record : AuditRecord JsonObject) : HashChain.Block Line Digest :=
  ⟨lineOf (recordJson record.toHashableRecord).sortKeys, record.hash⟩

theorem hashRecord_json (sha256 : JsString → Digest) (prev : Digest)
    (record : AuditRecord JsonObject) :
    hashRecord sha256 prev record.toJs.toHashableRecord =
      linkLine sha256 prev (blockOf record).content := by
  have hvalue : JsValue.object (recordEntries .ofJson .object record.toJs.toHashableRecord) =
      .ofJson (recordJson record.toHashableRecord) := rfl
  unfold hashRecord
  rw [hvalue, canonicalize_ofJson]
  rfl

/-- `verifyChain` walks the blocks of the records. -/
theorem verifyChain_json (sha256 : JsString → Digest) (records : List (AuditRecord JsonObject)) :
    verifyChain sha256 (records.map AuditRecord.toJs) =
      match HashChain.brokenAt (linkLine sha256) genesisHash (records.map blockOf) with
      | none => ⟨true, records.length, none⟩
      | some k => ⟨false, records.length, some k⟩ := by
  have walk : ∀ (rs : List (AuditRecord JsonObject)) (length index : Nat) (prev : Digest),
      verifyFrom sha256 length index prev (rs.map AuditRecord.toJs) =
        match HashChain.brokenAt (linkLine sha256) prev (rs.map blockOf) with
        | none => ⟨true, length, none⟩
        | some k => ⟨false, length, some (index + k)⟩ := by
    intro rs
    induction rs with
    | nil => intro length index prev; rfl
    | cons r rs ih =>
      intro length index prev
      rw [List.map_cons, List.map_cons, verifyFrom, HashChain.brokenAt, hashRecord_json]
      by_cases hlink : linkLine sha256 prev (blockOf r).content = (blockOf r).digest
      · have hhash : ¬ linkLine sha256 prev (blockOf r).content ≠ r.toJs.hash := by
          rw [not_not]
          exact hlink
        have hrest := ih length (index + 1) (blockOf r).digest
        rw [if_neg hhash, if_pos hlink]
        cases hbroken : HashChain.brokenAt (linkLine sha256) (blockOf r).digest
            (rs.map blockOf) with
        | none =>
          rw [hbroken] at hrest
          exact hrest
        | some k =>
          rw [hbroken] at hrest
          have hk : index + 1 + k = index + (k + 1) := by omega
          have hrest' : verifyFrom sha256 length (index + 1) (blockOf r).digest
              (rs.map AuditRecord.toJs) = ⟨false, length, some (index + 1 + k)⟩ := hrest
          rw [hk] at hrest'
          exact hrest'
      · rw [if_neg hlink, if_pos]
        · rfl
        · exact hlink
  have h := walk records (records.map AuditRecord.toJs).length 0 genesisHash
  simp only [Nat.zero_add, List.length_map] at h
  unfold verifyChain
  rw [List.length_map]
  exact h

/-! ## Appending and tampering -/

/-- `append`: the event is hashed behind the hash of the last record and stored with its hash. -/
def appendRecord (sha256 : JsString → Digest) (records : List (AuditRecord JsonObject))
    (event : HashableRecord JsonObject) : List (AuditRecord JsonObject) :=
  let prevHash := (records.getLast?.map (·.hash)).getD genesisHash
  let record : HashableRecord JsObject :=
    ⟨event.type, event.orgId, event.subject, event.payload.toJs, event.recordedAt⟩
  records ++ [⟨event, hashRecord sha256 prevHash record⟩]

/-- The records that appending the events in order leaves. -/
def appendAll (sha256 : JsString → Digest) (events : List (HashableRecord JsonObject)) :
    List (AuditRecord JsonObject) :=
  events.foldl (appendRecord sha256) []

/-- `records'` comes from `records` by editing fields other than the hash, deleting records and
reordering them, any number of times. -/
inductive Tampered (records : List (AuditRecord JsonObject)) :
    List (AuditRecord JsonObject) → Prop where
  | untouched : Tampered records records
  | edit {pre post : List (AuditRecord JsonObject)} {r r' : AuditRecord JsonObject} :
      Tampered records (pre ++ r :: post) → r'.hash = r.hash →
      Tampered records (pre ++ r' :: post)
  | delete {pre post : List (AuditRecord JsonObject)} {r : AuditRecord JsonObject} :
      Tampered records (pre ++ r :: post) → Tampered records (pre ++ post)
  | reorder {rs rs' : List (AuditRecord JsonObject)} :
      Tampered records rs → rs.Perm rs' → Tampered records rs'

/-- Tampering leaves no hash that was not there. -/
theorem Tampered.hashes {R R' : List (AuditRecord JsonObject)} (h : Tampered R R') :
    ∀ r ∈ R', r.hash ∈ R.map (·.hash) := by
  induction h with
  | untouched => exact fun r hr => List.mem_map.mpr ⟨r, hr, rfl⟩
  | @edit pre post r r' _ hhash ih =>
    intro s hs
    rcases List.mem_append.mp hs with hs | hs
    · exact ih s (List.mem_append_left _ hs)
    · rcases List.mem_cons.mp hs with rfl | hs
      · rw [hhash]
        exact ih r (by simp)
      · exact ih s (by simp [hs])
  | @delete pre post r _ ih =>
    intro s hs
    have hs' : s ∈ pre ∨ s ∈ post := List.mem_append.mp hs
    exact ih s (by
      rcases hs' with hs | hs
      · simp [hs]
      · simp [hs])
  | reorder _ hperm ih => exact fun s hs => ih s (hperm.mem_iff.mpr hs)

/-- Equal records, their payloads compared up to the order of object keys. -/
structure SameRecord (a b : AuditRecord JsonObject) : Prop where
  type : a.type = b.type
  orgId : a.orgId = b.orgId
  subject : a.subject = b.subject
  payload : Json.KeyOrder (.object a.payload.entries) (.object b.payload.entries)
  recordedAt : a.recordedAt = b.recordedAt
  hash : a.hash = b.hash

theorem nullable_inj {a b : Option JsString} (h : nullable a = nullable b) : a = b := by
  cases a with
  | none => cases b with
    | none => rfl
    | some t => cases h
  | some s => cases b with
    | none => cases h
    | some t => exact congrArg some (Json.string.inj h)

/-- Blocks are equal exactly when records are. -/
theorem blockOf_eq_iff {a b : AuditRecord JsonObject} : blockOf a = blockOf b ↔ SameRecord a b := by
  have entries : ∀ r : AuditRecord JsonObject, (recordJson r.toHashableRecord).sortKeys =
      .object [(ascii "orgId", nullable r.orgId),
        (ascii "payload", (Json.object r.payload.entries).sortKeys),
        (ascii "recordedAt", .string (toISOString r.recordedAt)),
        (ascii "subject", nullable r.subject), (ascii "type", .string r.type)] := by
    intro r
    have hsorted : sortByKey (recordEntries id (fun p : JsonObject => Json.object p.entries)
        r.toHashableRecord) =
        [(ascii "orgId", nullable r.orgId), (ascii "payload", .object r.payload.entries),
          (ascii "recordedAt", .string (toISOString r.recordedAt)),
          (ascii "subject", nullable r.subject), (ascii "type", .string r.type)] := by
      rfl
    have hnullable : ∀ text : Option JsString, (nullable text).sortKeys = nullable text := by
      intro text
      cases text <;> rfl
    rw [recordJson, Json.sortKeys_object, hsorted]
    simp only [List.map_cons, List.map_nil, hnullable, Json.sortKeys]
  constructor
  · intro h
    obtain ⟨hcontent, hhash⟩ := HashChain.Block.mk.inj h
    have hjson := Json.stringify_inj (Subtype.mk.inj hcontent)
    rw [entries a, entries b] at hjson
    simp only [Json.object.injEq, List.cons.injEq, Prod.mk.injEq, true_and, and_true,
      Json.string.injEq] at hjson
    obtain ⟨horg, hpayload, hdate, hsubject, htype⟩ := hjson
    exact ⟨htype, nullable_inj horg, nullable_inj hsubject,
      (Json.sortKeys_eq_iff a.payload.distinct).mp hpayload, toISOString_inj hdate, hhash⟩
  · intro h
    have hpayload := (Json.sortKeys_eq_iff a.payload.distinct).mpr h.payload
    have hjson : (recordJson a.toHashableRecord).sortKeys =
        (recordJson b.toHashableRecord).sortKeys := by
      rw [entries a, entries b, h.type, h.orgId, h.subject, hpayload, h.recordedAt]
    unfold blockOf
    rw [hjson, h.hash]

/-! ## Tamper evidence -/

section TamperEvidence

variable {sha256 : JsString → Digest}

theorem digest_plain (d : Digest) {u : CodeUnit} (hu : u ∈ d.text) :
    u ≠ 10 ∧ u.val < 0xD800 := by
  have hhex := List.all_eq_true.mp d.hex u hu
  have hrange : (48 ≤ u.val ∧ u.val ≤ 57) ∨ (97 ≤ u.val ∧ u.val ≤ 102) := by simpa using hhex
  constructor
  · rintro rfl
    revert hrange
    decide
  · omega

/-- The text hashed for a line has no lone surrogate. -/
theorem wellFormed_link (prev : Digest) (line : Line) :
    wellFormed (prev.text ++ 10 :: line.val) = true := by
  have hprev : wellFormed prev.text = true :=
    wellFormed_of_plain fun u hu => (digest_plain prev hu).2
  have hline : wellFormed (10 :: line.val) = true := by
    rw [wellFormed_cons (by decide) (by decide)]
    exact line.property.1
  exact wellFormed_append hprev hline

/-- The first line break of a hashed text ends the digest. -/
theorem linkLine_inj (hinj : Set.InjOn sha256 {text | wellFormed text = true}) (p q : Digest)
    (a b : Line) (h : linkLine sha256 p a = linkLine sha256 q b) : p = q ∧ a = b := by
  have htext : p.text ++ 10 :: a.val = q.text ++ 10 :: b.val :=
    hinj (wellFormed_link p a) (wellFormed_link q b) h
  have hbreak : ∀ (d : Digest) (rest : JsString),
      (d.text ++ 10 :: rest).takeWhile (· != 10) = d.text := by
    intro d rest
    rw [List.takeWhile_append_of_pos]
    · simp
    · intro u hu
      simpa using (digest_plain d hu).1
  have hdigest : p.text = q.text := by rw [← hbreak p a.val, ← hbreak q b.val, htext]
  have hpq : p = q := by
    cases p
    cases q
    simpa using hdigest
  rw [hdigest] at htext
  have hline : a.val = b.val := (List.cons.inj (List.append_cancel_left htext)).2
  exact ⟨hpq, Subtype.ext hline⟩

theorem last_blocks (records : List (AuditRecord JsonObject)) :
    HashChain.last genesisHash (records.map blockOf) =
      (records.getLast?.map (·.hash)).getD genesisHash := by
  rcases List.eq_nil_or_concat records with rfl | ⟨init, r, rfl⟩
  · rfl
  · rw [List.concat_eq_append, List.map_append, List.map_singleton, HashChain.last_append]
    simp [blockOf]

/-- Appending keeps the chain linked. -/
theorem linked_appendAll (events : List (HashableRecord JsonObject)) :
    HashChain.Linked (linkLine sha256) genesisHash ((appendAll sha256 events).map blockOf) := by
  unfold appendAll
  induction events using List.reverseRecOn with
  | nil => exact HashChain.linked_nil _ _
  | append_singleton events event ih =>
    rw [List.foldl_append, List.foldl_cons, List.foldl_nil, appendRecord, List.map_append,
      List.map_singleton]
    refine HashChain.linked_append _ ih ?_
    rw [last_blocks]
    exact (hashRecord_json sha256 _ ⟨event, genesisHash⟩).symm

/-- **The audit chain is tamper-evident.**  Of records that were appended and then edited, deleted
and reordered, exactly the prefixes of the appended ones verify; otherwise verification reports the
first record that is not the appended one. -/
theorem audit_tamper_evident (hinj : Set.InjOn sha256 {text | wellFormed text = true})
    (hgenesis : ∀ text, sha256 text ≠ genesisHash) (events : List (HashableRecord JsonObject))
    (records : List (AuditRecord JsonObject)) (h : Tampered (appendAll sha256 events) records) :
    ((verifyChain sha256 (records.map AuditRecord.toJs)).ok = true ↔
      ∃ kept, kept <+: appendAll sha256 events ∧ List.Forall₂ SameRecord records kept) ∧
    ((verifyChain sha256 (records.map AuditRecord.toJs)).ok = false →
      ∃ k r, (verifyChain sha256 (records.map AuditRecord.toJs)).brokenAt = some k ∧
        records[k]? = some r ∧
        List.Forall₂ SameRecord (records.take k) ((appendAll sha256 events).take k) ∧
        ∀ original ∈ (appendAll sha256 events)[k]?, ¬ SameRecord r original) := by
  have hsub : ∀ b ∈ records.map blockOf,
      b.digest ∈ ((appendAll sha256 events).map blockOf).map (·.digest) := by
    intro b hb
    obtain ⟨r, hr, rfl⟩ := List.mem_map.mp hb
    rw [List.map_map]
    exact h.hashes r hr
  have hbroken := HashChain.brokenAt_eq_firstDifference (linkLine_inj hinj)
    (fun _ _ => hgenesis _) (linked_appendAll events) hsub
  have same : ∀ as bs : List (AuditRecord JsonObject),
      as.map blockOf = bs.map blockOf ↔ List.Forall₂ SameRecord as bs := by
    intro as bs
    rw [← List.forall₂_eq_eq_eq, List.forall₂_map_left_iff, List.forall₂_map_right_iff]
    constructor
    · exact List.Forall₂.imp fun _ _ hab => blockOf_eq_iff.mp hab
    · exact List.Forall₂.imp fun _ _ hab => blockOf_eq_iff.mpr hab
  rw [verifyChain_json, hbroken]
  constructor
  · have hkeptIff : (∃ kept, kept <+: appendAll sha256 events ∧
        List.Forall₂ SameRecord records kept) ↔
        records.map blockOf <+: (appendAll sha256 events).map blockOf := by
      constructor
      · rintro ⟨kept, hkept, hsame⟩
        rw [(same records kept).mpr hsame]
        exact hkept.map blockOf
      · intro hpre
        refine ⟨(appendAll sha256 events).take records.length, List.take_prefix _ _, ?_⟩
        rw [← same, List.map_take]
        have htake := List.prefix_iff_eq_take.mp hpre
        rwa [List.length_map] at htake
    rw [hkeptIff, ← HashChain.firstDifference_eq_none]
    cases HashChain.firstDifference ((appendAll sha256 events).map blockOf)
        (records.map blockOf) with
    | none => simp
    | some k => simp
  · intro hok
    cases hdiff : HashChain.firstDifference ((appendAll sha256 events).map blockOf)
        (records.map blockOf) with
    | none => simp [hdiff] at hok
    | some k =>
      obtain ⟨hlt, htake, hne⟩ := HashChain.firstDifference_eq_some hdiff
      rw [List.length_map] at hlt
      have hget : records[k]? = some records[k] := List.getElem?_eq_getElem hlt
      refine ⟨k, records[k], rfl, hget, ?_, ?_⟩
      · rw [← same, List.map_take, List.map_take]
        exact htake
      · intro original horiginal hsame
        have horiginal' : (appendAll sha256 events)[k]? = some original := horiginal
        rw [List.getElem?_map, List.getElem?_map, hget, horiginal'] at hne
        exact hne (congrArg some (blockOf_eq_iff.mpr hsame))

end TamperEvidence

/-! ## A run -/

/-- The four hexadecimal digits of a unit. -/
def unitHex (u : CodeUnit) : JsString :=
  [hexDigit (u.val / 4096), hexDigit (u.val / 256 % 16), hexDigit (u.val / 16 % 16),
    hexDigit (u.val % 16)]

theorem unitHex_inj {u v : CodeUnit} (h : unitHex u = unitHex v) : u = v := by
  have hu : u.val < 65536 := u.isLt
  have hv : v.val < 65536 := v.isLt
  have back : ∀ {d e : Nat}, d < 16 → e < 16 → hexDigit d = hexDigit e → d = e := by
    intro d e hd he hde
    rw [← hexValue_hexDigit hd, ← hexValue_hexDigit he, hde]
  simp only [unitHex, List.cons.injEq, and_true] at h
  have h1 := back (by omega) (by omega) h.1
  have h2 := back (by omega) (by omega) h.2.1
  have h3 := back (by omega) (by omega) h.2.2.1
  have h4 := back (by omega) (by omega) h.2.2.2
  exact Fin.ext (by omega)

theorem hexDigit_isHex {d : Nat} (h : d < 16) : (decide (48 ≤ (hexDigit d).val ∧
    (hexDigit d).val ≤ 57) || decide (97 ≤ (hexDigit d).val ∧ (hexDigit d).val ≤ 102)) = true := by
  have hval := hexDigit_val h
  simp only [Bool.or_eq_true, decide_eq_true_eq]
  split_ifs at hval with hd
  · omega
  · omega

/-- A hash without collisions: `f` and the digits of the text. -/
def spelledOut (text : JsString) : Digest where
  text := 102 :: text.flatMap unitHex
  hex := by
    refine List.all_eq_true.mpr fun u hu => ?_
    rcases List.mem_cons.mp hu with rfl | hu
    · decide
    · obtain ⟨v, -, hv⟩ := List.mem_flatMap.mp hu
      have hlt : v.val < 65536 := v.isLt
      simp only [unitHex, List.mem_cons, List.not_mem_nil, or_false] at hv
      rcases hv with rfl | rfl | rfl | rfl
      all_goals exact hexDigit_isHex (by omega)

theorem spelledOut_inj : Function.Injective spelledOut := by
  intro s t h
  have htext : s.flatMap unitHex = t.flatMap unitHex :=
    (List.cons.inj (congrArg Digest.text h)).2
  induction s generalizing t with
  | nil =>
    cases t with
    | nil => rfl
    | cons v t => simp [unitHex] at htext
  | cons u s ih =>
    cases t with
    | nil => simp [unitHex] at htext
    | cons v t =>
      rw [List.flatMap_cons, List.flatMap_cons] at htext
      obtain ⟨huv, hrest⟩ := List.append_inj htext rfl
      have hst : spelledOut s = spelledOut t := by
        simp only [spelledOut, hrest]
      rw [unitHex_inj huv, ih hst hrest]

theorem spelledOut_ne_genesis (text : JsString) : spelledOut text ≠ genesisHash := by
  intro h
  have hhead : (102 : CodeUnit) = 48 := (List.cons.inj (congrArg Digest.text h)).1
  exact absurd hhead (by decide)

/-- Midnight of the first of January. -/
def newYear : JsDate := ⟨2026, 0, 1, 0, 0, 0, 0, by decide, by decide⟩

/-- Three events of `user:ann` in the first seconds of the year. -/
def annEvents : List (HashableRecord JsonObject) :=
  [⟨ascii "mfa.enrolled", some (ascii "acme"), some (ascii "user:ann"), ⟨[], by decide⟩, newYear⟩,
    ⟨ascii "mfa.activated", some (ascii "acme"), some (ascii "user:ann"),
      ⟨[(ascii "factor", .string (ascii "totp"))], by decide⟩,
      ⟨2026, 0, 1, 0, 0, 1, 0, by decide, by decide⟩⟩,
    ⟨ascii "mfa.disabled", some (ascii "acme"), some (ascii "user:ann"), ⟨[], by decide⟩,
      ⟨2026, 0, 1, 0, 0, 2, 0, by decide, by decide⟩⟩]

def blameMallory (record : AuditRecord JsonObject) : AuditRecord JsonObject :=
  { record with subject := some (ascii "user:mallory") }

/-- The first record is deleted, the other two change places, and the new first one is rewritten. -/
def malloryRecords : List (AuditRecord JsonObject) :=
  (appendAll spelledOut annEvents).tail.reverse.modifyHead blameMallory

theorem malloryRecords_tampered : Tampered (appendAll spelledOut annEvents) malloryRecords := by
  have hdeleted : Tampered (appendAll spelledOut annEvents)
      (appendAll spelledOut annEvents).tail := by
    cases hrecords : appendAll spelledOut annEvents with
    | nil => exact .untouched
    | cons first records =>
      have huntouched : Tampered (first :: records) ([] ++ first :: records) := .untouched
      exact huntouched.delete
  have hreordered := hdeleted.reorder (List.reverse_perm _).symm
  unfold malloryRecords
  generalize (appendAll spelledOut annEvents).tail.reverse = records at hreordered ⊢
  cases records with
  | nil => exact hreordered
  | cons first records =>
    have hsplit : Tampered (appendAll spelledOut annEvents) ([] ++ first :: records) := hreordered
    show Tampered _ ([] ++ blameMallory first :: records)
    exact hsplit.edit rfl

theorem audit_tamper_evident_mallory :
    ¬ ∃ kept, kept <+: appendAll spelledOut annEvents ∧
      List.Forall₂ SameRecord malloryRecords kept := by
  have hok : ¬ (verifyChain spelledOut (malloryRecords.map AuditRecord.toJs)).ok = true := by
    decide +kernel
  exact mt (audit_tamper_evident (spelledOut_inj.injOn) spelledOut_ne_genesis annEvents
    malloryRecords malloryRecords_tampered).1.mpr hok

end AccessCore
