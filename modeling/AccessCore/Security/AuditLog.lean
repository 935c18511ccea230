/-
  The audit log (`security/infrastructure/drizzle-audit-log.ts`).

  `append` takes a lock, reads the last hash, hashes the event behind it and inserts a row; `verify`
  reads the rows in the order of their numbers and recomputes every hash.  The payload is hashed as
  the value in memory and verified as the value that comes back from the table, and in between it
  is JSON: `JSON.stringify` drops what is not JSON, and `jsonb` keeps no order of keys.  The lock
  keeps the chain linear under any interleaving.

  So the log verifies when every payload has one canonical text before and after (`kept`,
  `appends_verify`).  That fails where `canonicalize` writes what `JSON.stringify` drops: the value
  `undefined` under a key is hashed as `null` and stored as nothing (`undefined_breaks_chain`).
-/
import AccessCore.Security.AuditChain

namespace AccessCore

open JsString

/-! ## JSON of a value -/

mutual
/-- The JSON value that `JSON.stringify` writes; `none` where it returns `undefined`. -/
def JsValue.toJson : JsValue → Option Json
  | .undefined => none
  | .null => some .null
  | .bool value => some (.bool value)
  | .number (some n) => some (.number n)
  | .number none => some .null
  | .string s => some (.string s)
  | .callable => none
  | .array items => some (.array (jsonItems items))
  | .object entries => some (.object (jsonEntries entries))
  | .replaced _ json => json
/-- In an array, what has no JSON value is `null`. -/
def jsonItems : List (Option JsValue) → List Json
  | [] => []
  | none :: items => .null :: jsonItems items
  | some item :: items => item.toJson.getD .null :: jsonItems items
/-- In an object, what has no JSON value is left out. -/
def jsonEntries : List (JsString × JsValue) → List (JsString × Json)
  | [] => []
  | (key, value) :: entries =>
    match value.toJson with
    | some json => (key, json) :: jsonEntries entries
    | none => jsonEntries entries
end

def JsValue.isUndefined : JsValue → Bool
  | .undefined => true
  | _ => false

mutual
/-- A value that is written as its JSON value is: no function, symbol or hole, no `undefined` under
    a key, and an object that `JSON.stringify` replaces only by one with the text of its own
    keys. -/
def JsValue.kept : JsValue → Bool
  | .callable => false
  | .array items => keptItems items
  | .object entries => keptEntries entries
  | .replaced entries (some json) => canonicalize (.object entries) = canonicalize (.ofJson json)
  | .replaced _ none => false
  | .undefined => true
  | .null => true
  | .bool _ => true
  | .number _ => true
  | .string _ => true
def keptItems : List (Option JsValue) → Bool
  | [] => true
  | none :: _ => false
  | some item :: items => item.kept && keptItems items
def keptEntries : List (JsString × JsValue) → Bool
  | [] => true
  | (_, value) :: entries => !value.isUndefined && value.kept && keptEntries entries
end

/-- Only `undefined` is kept without a JSON value. -/
theorem isUndefined_of_kept {value : JsValue} (h : value.kept = true)
    (hjson : value.toJson = none) : value.isUndefined = true := by
  cases value with
  | undefined => rfl
  | callable => cases h
  | number n => cases n <;> cases hjson
  | replaced entries json =>
    rw [JsValue.toJson] at hjson
    subst hjson
    cases h
  | _ => cases hjson

mutual
/-- Such a value has the canonical text of its JSON value. -/
theorem canonicalize_kept : ∀ value : JsValue, value.kept = true →
    canonicalize value = canonicalize (.ofJson (value.toJson.getD .null))
  | .undefined, _ => rfl
  | .null, _ => rfl
  | .bool _, _ => rfl
  | .number (some _), _ => rfl
  | .number none, _ => rfl
  | .string _, _ => rfl
  | .callable, h => by cases h
  | .array items, h => by
    have hitems := canonicalizeItems_kept items h
    rw [JsValue.toJson, Option.getD_some, JsValue.ofJson, canonicalize, canonicalize, hitems]
  | .object entries, h => by
    have hentries := canonicalizeEntries_kept entries h
    rw [JsValue.toJson, Option.getD_some, JsValue.ofJson, canonicalize, canonicalize, hentries]
  | .replaced entries (some json), h => by
    have htext : canonicalize (.object entries) = canonicalize (.ofJson json) :=
      of_decide_eq_true h
    exact htext
  | .replaced _ none, h => by cases h
theorem canonicalizeItems_kept : ∀ items : List (Option JsValue), keptItems items = true →
    canonicalizeItems items = canonicalizeItems (ofJsonItems (jsonItems items))
  | [], _ => rfl
  | none :: _, h => by cases h
  | some item :: items, h => by
    obtain ⟨hitem, hitems⟩ := Bool.and_eq_true_iff.mp h
    have htext := canonicalize_kept item hitem
    have hrest := canonicalizeItems_kept items hitems
    rw [jsonItems, ofJsonItems, canonicalizeItems, canonicalizeItems, htext, hrest]
theorem canonicalizeEntries_kept : ∀ entries : List (JsString × JsValue),
    keptEntries entries = true →
    canonicalizeEntries entries = canonicalizeEntries (ofJsonEntries (jsonEntries entries))
  | [], _ => rfl
  | (key, value) :: entries, h => by
    obtain ⟨hvalue, hentries⟩ := Bool.and_eq_true_iff.mp h
    obtain ⟨hdefined, hkept⟩ := Bool.and_eq_true_iff.mp hvalue
    have htext := canonicalize_kept value hkept
    have hrest := canonicalizeEntries_kept entries hentries
    cases hjson : value.toJson with
    | none =>
      rw [isUndefined_of_kept hkept hjson] at hdefined
      cases hdefined
    | some json =>
      rw [hjson, Option.getD_some] at htext
      have hkeep : jsonEntries ((key, value) :: entries) = (key, json) :: jsonEntries entries := by
        rw [jsonEntries, hjson]
      rw [hkeep, ofJsonEntries, canonicalizeEntries, canonicalizeEntries, htext, hrest]
end

/-! ## The table -/

/-- An event; its payload is an object by its own enumerable keys, and no object repeats a key. -/
structure AuditLogEvent where
  type : JsString
  orgId : Option JsString
  subject : Option JsString
  payload : JsObject
  distinct : (Json.object (jsonEntries payload)).distinctKeys = true

/-- The JSON of the payload. -/
def AuditLogEvent.json (event : AuditLogEvent) : JsonObject :=
  ⟨jsonEntries event.payload, event.distinct⟩

/-- An event that the table gives back as it was hashed. -/
def AuditLogEvent.kept (event : AuditLogEvent) : Bool :=
  wellFormed event.type && event.orgId.all wellFormed && event.subject.all wellFormed &&
    keptEntries event.payload

/-- A `jsonb` column: what it refuses, and how it gives back the rest. -/
structure Jsonb where
  accepts : JsonObject → Bool
  stored : JsonObject → JsonObject
  keyOrder : ∀ payload,
    Json.KeyOrder (.object payload.entries) (.object (stored payload).entries)

/-- What a `text` column accepts, and gives back: it is written as UTF-8 and holds no zero. -/
def textAccepts (text : JsString) : Bool := 0 ∉ text

/-- A row of `security_audit`, as it is read. -/
structure AuditRow where
  seq : Nat
  record : AuditRecord JsonObject
  prevHash : Digest

/-- How far an `append` has come: it holds the lock, has read the last hash, has inserted its
    row. -/
inductive AppendStage where
  | locked
  | tailRead (prevHash : Digest)
  | inserted (row : AuditRow)

/-- The committed rows, the sequence of their numbers, the `append` that holds the lock.  `appended`
    lists the events whose `append` committed. -/
structure AuditStore where
  rows : List AuditRow
  sequence : Nat
  holder : Option (AuditLogEvent × AppendStage)
  appended : List AuditLogEvent

/-- An `append` gets the lock, its holder runs the next statement, the holder is rolled back. -/
inductive AuditStep where
  | lock (event : AuditLogEvent)
  | next (now : JsDate)
  | rollback

/-- The event that a step brings in is kept. -/
def AuditStep.kept : AuditStep → Bool
  | .lock event => event.kept
  | _ => true

namespace AuditStore

def empty : AuditStore := ⟨[], 0, none, []⟩

/-- The hash of the row with the largest number. -/
def tailHash (rows : List AuditRow) : Digest :=
  ((rows.insertionSort fun a b => b.seq ≤ a.seq).head?.map (·.record.hash)).getD genesisHash

/-- `verify`. -/
def verify (sha256 : JsString → Digest) (store : AuditStore) : ChainVerification :=
  verifyChain sha256
    ((store.rows.insertionSort fun a b => a.seq ≤ b.seq).map fun row => row.record.toJs)

section Append

variable (sha256 : JsString → Digest) (jsonb : Jsonb)

/-- The hash that `append` computes. -/
def eventHash (prevHash : Digest) (event : AuditLogEvent) (now : JsDate) : Digest :=
  hashRecord sha256 prevHash ⟨event.type, event.orgId, event.subject, event.payload, now⟩

/-- The row that is read after the insert. -/
def rowOf (seq : Nat) (prevHash : Digest) (event : AuditLogEvent) (now : JsDate) : AuditRow where
  seq := seq
  record :=
    ⟨⟨toWellFormed event.type, event.orgId.map toWellFormed, event.subject.map toWellFormed,
      jsonb.stored event.json, now⟩, eventHash sha256 prevHash event now⟩
  prevHash := prevHash

/-- Whether the insert goes through: the columns accept the event, and its hash is a new one. -/
def inserts (rows : List AuditRow) (event : AuditLogEvent) (hash : Digest) : Bool :=
  textAccepts event.type && event.orgId.all textAccepts && event.subject.all textAccepts &&
    jsonb.accepts event.json && rows.all fun row => row.record.hash ≠ hash

/-- The next statement of the holder. -/
def next (store : AuditStore) (event : AuditLogEvent) (now : JsDate) : AppendStage → AuditStore
  | .locked => { store with holder := some (event, .tailRead (tailHash store.rows)) }
  | .tailRead prevHash =>
    let seq := store.sequence + 1
    let row := rowOf sha256 jsonb seq prevHash event now
    { store with
      sequence := seq
      holder :=
        if inserts jsonb store.rows event row.record.hash then some (event, .inserted row)
        else none }
  | .inserted row => { store with
      rows := store.rows ++ [row]
      holder := none
      appended := store.appended ++ [event] }

/-- One step; one that cannot happen changes nothing. -/
def step (store : AuditStore) : AuditStep → AuditStore
  | .lock event =>
    match store.holder with
    | some _ => store
    | none => { store with holder := some (event, .locked) }
  | .next now =>
    match store.holder with
    | some (event, stage) => store.next sha256 jsonb event now stage
    | none => store
  | .rollback => { store with holder := none }

def run (store : AuditStore) (steps : List AuditStep) : AuditStore :=
  steps.foldl (step sha256 jsonb) store

end Append

/-! ## The invariant -/

variable {sha256 : JsString → Digest} {jsonb : Jsonb} {store : AuditStore}

/-- The last hash of the rows in the order they committed in. -/
def lastHash (rows : List AuditRow) : Digest :=
  HashChain.last genesisHash (rows.map fun row => blockOf row.record)

/-- The block of a row links behind a digest. -/
def Links (sha256 : JsString → Digest) (prevHash : Digest) (row : AuditRow) : Prop :=
  linkLine sha256 prevHash (blockOf row.record).content = row.record.hash

/-- What the holder of the lock knows. -/
def HolderOk (sha256 : JsString → Digest) (store : AuditStore) (event : AuditLogEvent) :
    AppendStage → Prop
  | .locked => event.kept = true
  | .tailRead prevHash => event.kept = true ∧ prevHash = lastHash store.rows
  | .inserted row => Links sha256 (lastHash store.rows) row ∧ row.seq = store.sequence ∧
      ∀ earlier ∈ store.rows, earlier.seq < row.seq

structure Ok (sha256 : JsString → Digest) (store : AuditStore) : Prop where
  ordered : store.rows.Pairwise fun a b => a.seq < b.seq
  handedOut : ∀ row ∈ store.rows, row.seq ≤ store.sequence
  linked : HashChain.Linked (linkLine sha256) genesisHash
    (store.rows.map fun row => blockOf row.record)
  counted : store.rows.length = store.appended.length
  holder : ∀ event stage, store.holder = some (event, stage) →
    HolderOk sha256 store event stage

theorem Ok.empty : Ok sha256 AuditStore.empty where
  ordered := .nil
  handedOut row hrow := absurd hrow List.not_mem_nil
  linked := HashChain.linked_nil _ _
  counted := rfl
  holder event stage h := by cases h

/-- Rows that are in the order of their numbers, sorted the other way. -/
theorem sorted_reverse {rows : List AuditRow} (h : rows.Pairwise fun a b => a.seq < b.seq) :
    (rows.insertionSort fun a b => b.seq ≤ a.seq) = rows.reverse := by
  have : IsTrans AuditRow fun a b => b.seq ≤ a.seq := ⟨fun _ _ _ hab hbc => le_trans hbc hab⟩
  have : Std.Total fun a b : AuditRow => b.seq ≤ a.seq := ⟨fun a b => le_total b.seq a.seq⟩
  have hperm : (rows.insertionSort fun a b => b.seq ≤ a.seq).Perm rows.reverse :=
    (List.perm_insertionSort _ rows).trans (List.reverse_perm rows).symm
  refine hperm.eq_of_pairwise ?_ (List.pairwise_insertionSort _ rows) ?_
  · intro a b ha hb hab hba
    -- Two rows with one number are one row.
    have ha' : a ∈ rows := (List.mem_insertionSort _).mp ha
    have hb' : b ∈ rows := List.mem_reverse.mp hb
    have hnodup : (rows.map (·.seq)).Nodup :=
      List.pairwise_map.mpr (h.imp fun hlt => Nat.ne_of_lt hlt)
    exact List.inj_on_of_nodup_map hnodup ha' hb' (le_antisymm hba hab)
  · rw [List.pairwise_reverse]
    exact h.imp fun hlt => Nat.le_of_lt hlt

/-- The row with the largest number is the one that committed last. -/
theorem tailHash_eq {rows : List AuditRow} (h : rows.Pairwise fun a b => a.seq < b.seq) :
    tailHash rows = lastHash rows := by
  unfold tailHash lastHash
  rw [sorted_reverse h]
  rcases List.eq_nil_or_concat rows with rfl | ⟨front, row, rfl⟩
  · rfl
  · rw [List.concat_eq_append, List.map_append, List.map_singleton, HashChain.last_append,
      List.reverse_append]
    rfl

/-- Records that differ in their payload only have one canonical text when the payloads have. -/
theorem canonicalize_record {a b : HashableRecord JsObject} (htype : a.type = b.type)
    (horg : a.orgId = b.orgId) (hsubject : a.subject = b.subject)
    (hdate : a.recordedAt = b.recordedAt)
    (hpayload : canonicalize (.object a.payload) = canonicalize (.object b.payload)) :
    canonicalize (.object (recordEntries .ofJson .object a)) =
      canonicalize (.object (recordEntries .ofJson .object b)) := by
  have hentries : canonicalizeEntries (recordEntries .ofJson .object a) =
      canonicalizeEntries (recordEntries .ofJson .object b) := by
    unfold recordEntries
    simp only [canonicalizeEntries, htype, horg, hsubject, hdate, hpayload]
  rw [canonicalize, canonicalize, hentries]

/-- The row of a kept event links behind the digest that it was hashed behind. -/
theorem rowOf_links {event : AuditLogEvent} (h : event.kept = true) (seq : Nat) (prevHash : Digest)
    (now : JsDate) : Links sha256 prevHash (rowOf sha256 jsonb seq prevHash event now) := by
  obtain ⟨htexts, hpayload⟩ := Bool.and_eq_true_iff.mp h
  obtain ⟨htexts, hsubject⟩ := Bool.and_eq_true_iff.mp htexts
  obtain ⟨htype, horg⟩ := Bool.and_eq_true_iff.mp htexts
  have hnullable : ∀ text : Option JsString, text.all wellFormed = true →
      text.map toWellFormed = text := by
    intro text htext
    cases text with
    | none => rfl
    | some s => exact congrArg some (toWellFormed_eq htext)
  -- The payload as it was hashed, as its JSON, and as it comes back.
  have hmemory : canonicalize (.object event.payload) =
      canonicalize (.ofJson (.object event.json.entries)) := by
    have hentries := canonicalizeEntries_kept event.payload hpayload
    rw [JsValue.ofJson, canonicalize, canonicalize, hentries]
    rfl
  have hstored : canonicalize (.ofJson (.object event.json.entries)) =
      canonicalize (.ofJson (.object (jsonb.stored event.json).entries)) :=
    canonicalize_keyOrder event.json.distinct (jsonb.keyOrder event.json)
  have hvalue : canonicalize (.object event.payload) =
      canonicalize (.object (jsonb.stored event.json).toJs) := hmemory.trans hstored
  have hrecord := canonicalize_record
    (a := (rowOf sha256 jsonb seq prevHash event now).record.toJs.toHashableRecord)
    (b := ⟨event.type, event.orgId, event.subject, event.payload, now⟩)
    (toWellFormed_eq htype) (hnullable _ horg) (hnullable _ hsubject) rfl hvalue.symm
  have hhash : (rowOf sha256 jsonb seq prevHash event now).record.hash =
      eventHash sha256 prevHash event now := rfl
  unfold Links
  rw [← hashRecord_json, hhash]
  unfold eventHash hashRecord
  rw [hrecord]

theorem Ok.next {event : AuditLogEvent} {stage : AppendStage} (h : store.Ok sha256)
    (hholder : store.holder = some (event, stage)) (now : JsDate) :
    (store.next sha256 jsonb event now stage).Ok sha256 := by
  have hok := h.holder event stage hholder
  cases stage with
  | locked =>
    refine ⟨h.ordered, h.handedOut, h.linked, h.counted, ?_⟩
    intro event' stage' h'
    obtain ⟨rfl, rfl⟩ := Prod.mk.inj (Option.some.inj h')
    exact ⟨hok, tailHash_eq h.ordered⟩
  | tailRead prevHash =>
    obtain ⟨hkept, rfl⟩ := hok
    refine ⟨h.ordered, fun row hrow => Nat.le_succ_of_le (h.handedOut row hrow), h.linked,
      h.counted, ?_⟩
    intro event' stage' h'
    unfold AuditStore.next at h'
    dsimp only at h'
    split_ifs at h' with hinserts
    obtain ⟨rfl, rfl⟩ := Prod.mk.inj (Option.some.inj h')
    refine ⟨rowOf_links hkept _ _ now, rfl, ?_⟩
    intro earlier hearlier
    exact Nat.lt_succ_of_le (h.handedOut earlier hearlier)
  | inserted row =>
    obtain ⟨hlinks, hseq, hlater⟩ := hok
    constructor
    · refine List.pairwise_append.mpr ⟨h.ordered, List.pairwise_singleton _ _, ?_⟩
      intro a ha b hb
      rw [List.mem_singleton.mp hb]
      exact hlater a ha
    · intro r hr
      rcases List.mem_append.mp hr with hr | hr
      · exact h.handedOut r hr
      · rw [List.mem_singleton.mp hr]
        exact le_of_eq hseq
    · have hlinked := HashChain.linked_append (linkLine sha256) (b := blockOf row.record) h.linked
        hlinks
      unfold AuditStore.next
      rw [List.map_append, List.map_singleton]
      exact hlinked
    · show (store.rows ++ [row]).length = (store.appended ++ [event]).length
      rw [List.length_append, List.length_append, h.counted]
      rfl
    · intro event' stage' h'
      cases h'

/-- **The step lemma.** -/
theorem Ok.step (h : store.Ok sha256) {s : AuditStep} (hs : s.kept = true) :
    (store.step sha256 jsonb s).Ok sha256 := by
  cases s with
  | lock event =>
    unfold AuditStore.step
    cases hholder : store.holder with
    | some holder =>
      dsimp only
      exact h
    | none =>
      refine ⟨h.ordered, h.handedOut, h.linked, h.counted, ?_⟩
      intro event' stage' h'
      obtain ⟨rfl, rfl⟩ := Prod.mk.inj (Option.some.inj h')
      exact hs
  | next now =>
    unfold AuditStore.step
    cases hholder : store.holder with
    | none => exact h
    | some holder => exact h.next hholder now
  | rollback =>
    refine ⟨h.ordered, h.handedOut, h.linked, h.counted, ?_⟩
    intro event' stage' h'
    cases h'

/-- **The run lemma.** -/
theorem Ok.run {steps : List AuditStep} (h : store.Ok sha256)
    (hsteps : ∀ s ∈ steps, s.kept = true) :
    (store.run sha256 jsonb steps).Ok sha256 := by
  induction steps generalizing store with
  | nil => exact h
  | cons s steps ih =>
    have hs := hsteps s (List.mem_cons_self ..)
    exact ih (h.step hs) fun s' hs' => hsteps s' (List.mem_cons_of_mem _ hs')

/-- A linked chain in the order of its numbers verifies. -/
theorem Ok.verify (h : store.Ok sha256) :
    store.verify sha256 = ⟨true, store.appended.length, none⟩ := by
  have hsorted : (store.rows.insertionSort fun a b => a.seq ≤ b.seq) = store.rows :=
    List.Pairwise.insertionSort_eq (h.ordered.imp fun hlt => Nat.le_of_lt hlt)
  have hlinked : HashChain.brokenAt (linkLine sha256) genesisHash
      ((store.rows.map (·.record)).map blockOf) = none := by
    rw [List.map_map]
    exact h.linked
  have hrecords : (store.rows.map fun row => row.record.toJs) =
      (store.rows.map (·.record)).map AuditRecord.toJs := by
    rw [List.map_map]
    rfl
  unfold AuditStore.verify
  rw [hsorted, hrecords, verifyChain_json, hlinked, List.length_map, h.counted]

end AuditStore

/-- **What the audit log appends, it verifies**, when the payloads are kept: in every run of any
    appends, `verify` reports an unbroken chain of the committed ones. -/
theorem appends_verify (sha256 : JsString → Digest) (jsonb : Jsonb) (steps : List AuditStep)
    (hsteps : ∀ s ∈ steps, s.kept = true) :
    let store := AuditStore.empty.run sha256 jsonb steps
    store.verify sha256 = ⟨true, store.appended.length, none⟩ := by
  intro store
  have h : store.Ok sha256 := AuditStore.Ok.empty.run hsteps
  exact h.verify

/-- A `jsonb` column that keeps the order of keys. -/
def plainColumn : Jsonb := ⟨fun _ => true, id, fun _ => .refl _⟩

/-- An event of `user:ann` with one payload entry. -/
def factorEvent (value : JsValue)
    (distinct : (Json.object (jsonEntries [(ascii "factor", value)])).distinctKeys = true) :
    AuditLogEvent where
  type := ascii "mfa.activated"
  orgId := some (ascii "acme")
  subject := some (ascii "user:ann")
  payload := [(ascii "factor", value)]
  distinct := distinct

/-- A `jsonb` column that gives the keys back in their order, at every depth. -/
def sortingColumn : Jsonb where
  accepts _ := true
  stored payload :=
    ⟨sortByKey (Json.sortEntries payload.entries),
      Json.KeyOrder.distinctKeys (Json.keyOrder_sortKeys (.object payload.entries))
        payload.distinct⟩
  keyOrder payload := Json.keyOrder_sortKeys (.object payload.entries)

/-- A payload with an object in it, the keys of neither in their order. -/
def loginEvent : AuditLogEvent where
  type := ascii "session.opened"
  orgId := none
  subject := some (ascii "user:bea")
  payload :=
    [(ascii "factor", .null),
      (ascii "client", .object
        [(ascii "ip", .string (ascii "10.0.0.7")),
          (ascii "agents", .array [some (.string (ascii "cli")), some (.bool true)])])]
  distinct := by decide

/-- The second append waits for the lock of the first, is rolled back, and is repeated. -/
def appendsTwice : List AuditStep :=
  [.lock (factorEvent (.string (ascii "totp")) (by decide)), .next newYear, .lock loginEvent,
    .next newYear, .next newYear, .lock loginEvent, .next newYear, .next newYear, .rollback,
    .lock loginEvent, .next newYear, .next newYear, .next newYear]

theorem appends_verify_appendsTwice :
    let store := AuditStore.empty.run spelledOut sortingColumn appendsTwice
    store.verify spelledOut = ⟨true, store.appended.length, none⟩ ∧ store.appended.length = 2 :=
  ⟨appends_verify spelledOut sortingColumn appendsTwice (by decide +kernel), by decide +kernel⟩

/-- `undefined` under a key is hashed as `null` and not stored. -/
theorem undefined_breaks_chain :
    let store := AuditStore.empty.run spelledOut plainColumn
      [.lock (factorEvent .undefined (by decide)), .next newYear, .next newYear, .next newYear]
    store.appended.length = 1 ∧ store.verify spelledOut = ⟨false, 1, some 0⟩ := by
  decide +kernel

end AccessCore
