/-
  Redeeming recovery codes and replacing them, at the same time.

  A code is used up by an update that asks for an unconsumed row, so it is redeemed once at most.
  A replacement deletes the codes its first statement finds and then commits its own; `Current`
  says that it has found all there are when it commits.  Along runs whose replacements all have,
  no code is accepted once a later batch is there (`recovery_codes_retired`).
-/
import AccessCore.Identity.MfaRaces

namespace AccessCore

open Interleave

inductive RecoveryCommand where
  | redeem (code : String)
  | issue (draws : List (String × List UInt8))

inductive RecoveryResult where
  | redeemed (accepted : Bool)
  | issued (codes : List String)

/-- The redemptions and issues of one user, with a clock that may read anything. -/
def recoveryMachine (crypto : Crypto) (userId : UserId) :
    Machine RecoveryCommand Int IdentityOp IdentityOp.Answer IdentityStore RecoveryResult where
  exec _ := IdentityStore.exec crypto
  event nowMs store := { store with nowMs := nowMs }
  program
    | .redeem code => do
      let accepted ← RedeemRecoveryCodeHandler.execute crypto userId code
      return .redeemed accepted
    | .issue draws => do
      let codes ← RecoveryCodeIssuer.issue crypto userId draws
      return .issued codes

abbrev RecoveryWorld := World IdentityOp IdentityStore
abbrev RecoverySystem := System RecoveryCommand IdentityOp IdentityOp.Answer IdentityStore
  RecoveryResult
abbrev RecoveryMoves := List (Move RecoveryCommand Int)

def recoveryRun (crypto : Crypto) (userId : UserId) (store : IdentityStore)
    (moves : RecoveryMoves) : RecoverySystem :=
  (recoveryMachine crypto userId).run ⟨⟨store, []⟩, []⟩ moves

/-! ## What the log says of codes -/

/-- A row has, or has had, this id and this hash. -/
def Seen (w : RecoveryWorld) (id codeHash : String) : Prop :=
  ∃ row : RecoveryCode, row.id = id ∧ row.codeHash = codeHash ∧
    (row ∈ w.state.recoveryCodes.rows ∨ ∃ event ∈ w.log, row ∈ event.before.recoveryCodes.rows)

/-- Whether an event committed a batch. -/
def commits (event : Event IdentityOp IdentityStore) : Bool :=
  match event.op with
  | .replaceCodes found codes => (event.before.replaceCodes found codes).2
  | _ => false

/-- The batch an event committed. -/
def batch (event : Event IdentityOp IdentityStore) : List RecoveryCode :=
  match event.op with
  | .replaceCodes found codes => if (event.before.replaceCodes found codes).2 then codes else []
  | _ => []

/-- The row an event used up. -/
def spent (event : Event IdentityOp IdentityStore) : Option String :=
  match event.op with
  | .consumeRecoveryCode code =>
    if (event.before.consumeRecoveryCode code).2 then some code.id else none
  | _ => none

/-- The ids and the hashes of a batch are new. -/
def NewCodes (op : IdentityOp) (w : RecoveryWorld) : Prop :=
  match op with
  | .replaceCodes _ codes => ∀ code ∈ codes,
      (∀ row ∈ w.state.recoveryCodes.rows, row.id ≠ code.id ∧ row.codeHash ≠ code.codeHash) ∧
      ∀ event ∈ w.log, ∀ row ∈ event.before.recoveryCodes.rows,
        row.id ≠ code.id ∧ row.codeHash ≠ code.codeHash
  | _ => True

/-- A batch that is committed replaces all unconsumed codes: its `DELETE` has found them. -/
def Current (userId : UserId) (op : IdentityOp) (store : IdentityStore) : Prop :=
  match op with
  | .replaceCodes found _ => ∀ id ∈ store.unconsumedCodes userId, id ∈ found
  | _ => True

/-- Runs whose batches are new and, if `current`, replace all unconsumed codes. -/
def replacing (userId : UserId) (current : Bool) :
    Conduct RecoveryCommand Int IdentityOp IdentityStore where
  start _ _ := True
  ask _ op w := NewCodes op w ∧ (current = true → Current userId op w.state)
  event _ _ := True

instance (op : IdentityOp) (w : RecoveryWorld) : Decidable (NewCodes op w) := by
  unfold NewCodes
  cases op <;> infer_instance

instance (userId : UserId) (op : IdentityOp) (store : IdentityStore) :
    Decidable (Current userId op store) := by
  unfold Current
  cases op <;> infer_instance

instance (crypto : Crypto) (userId user : UserId) (current : Bool) (sys : RecoverySystem)
    (moves : RecoveryMoves) :
    Decidable ((recoveryMachine crypto userId).Along (replacing user current) sys moves) :=
  have : ∀ c w, Decidable ((replacing user current).start c w) := fun _ _ => .isTrue trivial
  have : ∀ i op w, Decidable ((replacing user current).ask i op w) := fun _ op w =>
    inferInstanceAs (Decidable (NewCodes op w ∧ (current = true → Current user op w.state)))
  have : ∀ e w, Decidable ((replacing user current).event e w) := fun _ _ => .isTrue trivial
  Machine.Along.decidable (recoveryMachine crypto userId) (replacing user current) sys moves

/-- A call has redeemed a code with this hash. -/
def Redeems (crypto : Crypto) (sys : RecoverySystem) (i : Nat) (codeHash : String)
    (started : RecoveryWorld) : Prop :=
  ∃ call code, sys.calls[i]? = some call ∧ call.command = .redeem code ∧
    crypto.hash code = codeHash ∧ call.result = some (.redeemed true) ∧ call.started = started

/-- A code is redeemed by one call at most. -/
def RedeemedOnce (crypto : Crypto) (sys : RecoverySystem) : Prop :=
  ∀ codeHash i j started started', Redeems crypto sys i codeHash started →
    Redeems crypto sys j codeHash started' → i = j

/-- No code of a batch is accepted by a redemption that starts after a later batch. -/
def RetiredByLater (crypto : Crypto) (sys : RecoverySystem) : Prop :=
  ∀ codeHash i started, Redeems crypto sys i codeHash started →
    ∀ later earlier, [later, earlier].Sublist started.log → commits later = true →
      ∀ code ∈ batch earlier, code.codeHash ≠ codeHash

/-! ## What a replacement leaves -/

namespace IdentityStore

variable {store : IdentityStore}

/-- Rows with new ids are appended. -/
theorem rows_insertAll {codes : List RecoveryCode} :
    ∀ {table : Table RecoveryCode String (·.id)},
      ((table.rows ++ codes).map (·.id)).Nodup →
      (codes.foldl (fun table code =>
        table.upsert (fun _ new => new) (fun _ _ _ => rfl) code) table).rows =
        table.rows ++ codes := by
  induction codes with
  | nil =>
    intro table _
    simp
  | cons code codes ih =>
    intro table hnodup
    have hnone : table.get code.id = none := by
      rw [Table.get_eq_none]
      intro row hrow heq
      rw [List.map_append, List.map_cons] at hnodup
      have hdisjoint := (List.nodup_append.mp hnodup).2.2
      exact hdisjoint row.id (List.mem_map_of_mem hrow) code.id (List.mem_cons_self ..) heq
    have hrows : (table.upsert (fun _ new => new) (fun _ _ _ => rfl) code).rows =
        table.rows ++ [code] := Table.rows_upsert_of_get_none (fun _ _ _ => rfl) hnone
    rw [List.foldl_cons, ih (by rw [hrows, List.append_assoc]; exact hnodup), hrows,
      List.append_assoc]
    rfl

/-- A replacement is refused and changes nothing, or leaves the codes it has not found, the
    consumed ones, and its own. -/
theorem replaceCodes_cases (store : IdentityStore) (found : List String)
    (codes : List RecoveryCode) :
    store.replaceCodes found codes = (store, false) ∨
      (store.replaceCodes found codes).2 = true ∧
      (store.replaceCodes found codes).1.recoveryCodes.rows =
        (store.recoveryCodes.rows.filter fun row =>
          !(found.contains row.id && row.consumedAt.isNone)) ++ codes ∧
      (codes.map (·.id)).Nodup ∧ (codes.map (·.codeHash)).Nodup := by
  unfold replaceCodes
  simp only
  split_ifs with hnodup
  · refine Or.inr ⟨rfl, rows_insertAll hnodup.1, ?_, ?_⟩
    · have h := hnodup.1
      rw [List.map_append] at h
      exact (List.nodup_append.mp h).2.1
    · have h := hnodup.2
      rw [List.map_append] at h
      exact (List.nodup_append.mp h).2.1
  · exact Or.inl rfl

/-- A consumption finds no unconsumed row and changes nothing, or marks the one it finds. -/
theorem consumeRecoveryCode_cases (store : IdentityStore) (code : RecoveryCode) :
    store.consumeRecoveryCode code = (store, false) ∨
      (store.consumeRecoveryCode code).2 = true ∧ ∃ row,
        store.recoveryCodes.get code.id = some row ∧ row.consumedAt = none ∧
        ∀ id, (store.consumeRecoveryCode code).1.recoveryCodes.get id =
          if id = code.id then some { row with consumedAt := code.consumedAt }
          else store.recoveryCodes.get id := by
  unfold consumeRecoveryCode
  cases hrow : store.recoveryCodes.get code.id with
  | none => exact Or.inl rfl
  | some row =>
    by_cases hnone : row.consumedAt.isNone = true
    · simp only [hnone, if_true]
      refine Or.inr ⟨trivial, row, rfl, by simpa using hnone, fun id => ?_⟩
      have hmerge : Table.KeepsKey (·.id) fun old new : RecoveryCode =>
          { old with consumedAt := new.consumedAt } := fun _ _ h => h
      refine (Table.get_upsert hmerge id).trans ?_
      by_cases hid : id = code.id
      · rw [if_pos hid, if_pos hid, hid, hrow]
        rfl
      · rw [if_neg hid, if_neg hid]
    · simp [hnone]

/-- Every other operation leaves the codes as they are. -/
theorem exec_recoveryCodes {crypto : Crypto} {op : IdentityOp}
    (hreplace : ∀ found codes, op ≠ .replaceCodes found codes)
    (hconsume : ∀ code, op ≠ .consumeRecoveryCode code) :
    (store.exec crypto op).1.recoveryCodes = store.recoveryCodes := by
  cases op with
  | saveCredential credential =>
    show (store.saveCredential credential).1.recoveryCodes = _
    unfold saveCredential
    split_ifs <;> rfl
  | replaceCodes found codes => exact absurd rfl (hreplace found codes)
  | consumeRecoveryCode code => exact absurd rfl (hconsume code)
  | _ => rfl

end IdentityStore

/-! ## The step lemma -/

section Step

variable {crypto : Crypto} {userId : UserId} {current : Bool} {w : RecoveryWorld} {i : Nat}
  {op : IdentityOp} {id codeHash : String}

theorem commits_iff {event : Event IdentityOp IdentityStore} : commits event = true ↔
    ∃ found codes, event.op = .replaceCodes found codes ∧
      (event.before.replaceCodes found codes).2 = true := by
  unfold commits
  cases event.op with
  | replaceCodes found codes =>
    constructor
    · exact fun h => ⟨found, codes, rfl, h⟩
    · rintro ⟨_, _, heq, h⟩
      cases heq
      exact h
  | _ => simp

theorem mem_batch {event : Event IdentityOp IdentityStore} {code : RecoveryCode}
    (h : code ∈ batch event) : ∃ found codes, event.op = .replaceCodes found codes ∧
      (event.before.replaceCodes found codes).2 = true ∧ code ∈ codes := by
  unfold batch at h
  cases hop : event.op with
  | replaceCodes found codes =>
    rw [hop] at h
    simp only at h
    split_ifs at h with hok
    · exact ⟨found, codes, rfl, hok, h⟩
    · cases h
  | _ => rw [hop] at h; cases h

theorem spent_some {event : Event IdentityOp IdentityStore} (h : spent event = some id) :
    ∃ code, event.op = .consumeRecoveryCode code ∧ code.id = id ∧
      (event.before.consumeRecoveryCode code).2 = true := by
  unfold spent at h
  cases hop : event.op with
  | consumeRecoveryCode code =>
    rw [hop] at h
    simp only at h
    split_ifs at h with hok
    exact ⟨code, rfl, Option.some.inj h, hok⟩
  | _ => rw [hop] at h; cases h

/-- The codes after an operation: those of before, where a replacement leaves no unconsumed one
    that it has found, and the batch it commits. -/
theorem row_act {row : RecoveryCode}
    (h : row ∈ (w.state.exec crypto op).1.recoveryCodes.rows) :
    (∃ old ∈ w.state.recoveryCodes.rows, old.id = row.id ∧ old.codeHash = row.codeHash ∧
      old.userId = row.userId ∧ (row.consumedAt = none → old.consumedAt = none ∧
        ∀ found codes, op = .replaceCodes found codes →
          (w.state.replaceCodes found codes).2 = true → old.id ∉ found)) ∨
    row ∈ batch ⟨i, op, w.state⟩ := by
  by_cases hreplace : ∃ found codes, op = .replaceCodes found codes
  · obtain ⟨found, codes, rfl⟩ := hreplace
    replace h : row ∈ (w.state.replaceCodes found codes).1.recoveryCodes.rows := h
    rcases w.state.replaceCodes_cases found codes with hsame | ⟨hok, hrows, -, -⟩
    · rw [hsame] at h
      refine Or.inl ⟨row, h, rfl, rfl, rfl, fun hnone => ⟨hnone, fun found' codes' heq hok => ?_⟩⟩
      obtain ⟨rfl, rfl⟩ := IdentityOp.replaceCodes.inj heq
      rw [hsame] at hok
      cases hok
    · rw [hrows] at h
      rcases List.mem_append.mp h with h | h
      · obtain ⟨hmem, hkept⟩ := List.mem_filter.mp h
        refine Or.inl ⟨row, hmem, rfl, rfl, rfl, fun hnone =>
          ⟨hnone, fun found' codes' heq _ => ?_⟩⟩
        obtain ⟨rfl, rfl⟩ := IdentityOp.replaceCodes.inj heq
        simpa [hnone] using hkept
      · refine Or.inr ?_
        show row ∈ if (w.state.replaceCodes found codes).2 = true then codes else []
        rw [if_pos hok]
        exact h
  by_cases hconsume : ∃ code, op = .consumeRecoveryCode code
  · obtain ⟨code, rfl⟩ := hconsume
    replace h : row ∈ (w.state.consumeRecoveryCode code).1.recoveryCodes.rows := h
    rcases w.state.consumeRecoveryCode_cases code with hsame | ⟨-, old, hold, hnone, hget⟩
    · rw [hsame] at h
      exact Or.inl ⟨row, h, rfl, rfl, rfl, fun hnone => ⟨hnone, by simp⟩⟩
    · have hrow := Table.get_of_mem h
      rw [hget] at hrow
      split_ifs at hrow with hid
      · obtain rfl := Option.some.inj hrow
        obtain ⟨hmem, hkey⟩ := Table.mem_of_get hold
        exact Or.inl ⟨old, hmem, rfl, rfl, rfl, fun _ => ⟨hnone, by simp⟩⟩
      · obtain ⟨hmem, -⟩ := Table.mem_of_get hrow
        exact Or.inl ⟨row, hmem, rfl, rfl, rfl, fun hnone => ⟨hnone, by simp⟩⟩
  · rw [IdentityStore.exec_recoveryCodes (fun found codes heq => hreplace ⟨found, codes, heq⟩)
      fun code heq => hconsume ⟨code, heq⟩] at h
    refine Or.inl ⟨row, h, rfl, rfl, rfl, fun hnone => ⟨hnone, fun found codes heq => ?_⟩⟩
    exact absurd ⟨found, codes, heq⟩ hreplace

/-- A code that is used up stays so. -/
theorem consumed_act (h : ∃ row ∈ w.state.recoveryCodes.get id, row.consumedAt ≠ none) :
    ∃ row ∈ (w.state.exec crypto op).1.recoveryCodes.get id, row.consumedAt ≠ none := by
  obtain ⟨row, hrow, hconsumed⟩ := h
  by_cases hreplace : ∃ found codes, op = .replaceCodes found codes
  · obtain ⟨found, codes, rfl⟩ := hreplace
    show ∃ row ∈ (w.state.replaceCodes found codes).1.recoveryCodes.get id, row.consumedAt ≠ none
    rcases w.state.replaceCodes_cases found codes with hsame | ⟨-, hrows, -, -⟩
    · rw [hsame]
      exact ⟨row, hrow, hconsumed⟩
    · obtain ⟨hmem, rfl⟩ := Table.mem_of_get hrow
      have hkept : row ∈ (w.state.replaceCodes found codes).1.recoveryCodes.rows := by
        rw [hrows]
        refine List.mem_append_left _ (List.mem_filter.mpr ⟨hmem, ?_⟩)
        simp [Option.isSome_iff_ne_none.mpr hconsumed]
      exact ⟨row, Table.get_of_mem hkept, hconsumed⟩
  by_cases hconsume : ∃ code, op = .consumeRecoveryCode code
  · obtain ⟨code, rfl⟩ := hconsume
    show ∃ row ∈ (w.state.consumeRecoveryCode code).1.recoveryCodes.get id, row.consumedAt ≠ none
    rcases w.state.consumeRecoveryCode_cases code with hsame | ⟨-, old, hold, hnone, hget⟩
    · rw [hsame]
      exact ⟨row, hrow, hconsumed⟩
    · rw [hget]
      have hne : id ≠ code.id := by
        rintro rfl
        obtain rfl := Option.some.inj (hold.symm.trans hrow)
        exact hconsumed hnone
      rw [if_neg hne]
      exact ⟨row, hrow, hconsumed⟩
  · rw [IdentityStore.exec_recoveryCodes (fun found codes heq => hreplace ⟨found, codes, heq⟩)
      fun code heq => hconsume ⟨code, heq⟩]
    exact ⟨row, hrow, hconsumed⟩

theorem seen_of_mem {row : RecoveryCode} (h : row ∈ w.state.recoveryCodes.rows) :
    Seen w row.id row.codeHash :=
  ⟨row, rfl, rfl, Or.inl h⟩

theorem Seen.act (h : Seen w id codeHash) :
    Seen ((recoveryMachine crypto userId).act i op w) id codeHash := by
  obtain ⟨row, hid, hhash, hrow | ⟨event, hevent, hrow⟩⟩ := h
  · exact ⟨row, hid, hhash, Or.inr ⟨⟨i, op, w.state⟩, List.mem_cons_self .., hrow⟩⟩
  · exact ⟨row, hid, hhash, Or.inr ⟨event, List.mem_cons_of_mem _ hevent, hrow⟩⟩

/-- What is seen after an operation was seen before, or is in the batch it commits. -/
theorem seen_of_act (h : Seen ((recoveryMachine crypto userId).act i op w) id codeHash) :
    Seen w id codeHash ∨
      ∃ code ∈ batch ⟨i, op, w.state⟩, code.id = id ∧ code.codeHash = codeHash := by
  obtain ⟨row, rfl, rfl, hrow | ⟨event, hevent, hrow⟩⟩ := h
  · rcases row_act (i := i) hrow with ⟨old, hold, hid, hhash, -⟩ | hbatch
    · have hseen := seen_of_mem hold
      rw [hid, hhash] at hseen
      exact Or.inl hseen
    · exact Or.inr ⟨row, hbatch, rfl, rfl⟩
  · rcases List.mem_cons.mp hevent with rfl | hevent
    · exact Or.inl (seen_of_mem hrow)
    · exact Or.inl ⟨row, rfl, rfl, Or.inr ⟨event, hevent, hrow⟩⟩

/-- A new batch has nothing in common with what has been seen. -/
theorem unseen_batch (hnew : NewCodes op w) {code : RecoveryCode}
    (hcode : code ∈ batch ⟨i, op, w.state⟩) (h : Seen w id codeHash) :
    id ≠ code.id ∧ codeHash ≠ code.codeHash := by
  obtain ⟨found, codes, rfl, -, hmem⟩ := mem_batch hcode
  obtain ⟨hstate, hlog⟩ := hnew code hmem
  obtain ⟨row, rfl, rfl, hrow | ⟨event, hevent, hrow⟩⟩ := h
  · exact hstate row hrow
  · exact hlog event hevent row hrow

/-- The codes of a batch differ in their ids and in their hashes. -/
theorem batch_distinct {code code' : RecoveryCode} (hcode : code ∈ batch ⟨i, op, w.state⟩)
    (hcode' : code' ∈ batch ⟨i, op, w.state⟩) (h : code.id = code'.id ∨
      code.codeHash = code'.codeHash) : code = code' := by
  obtain ⟨found, codes, rfl, hok, hmem⟩ := mem_batch hcode
  obtain ⟨found', codes', heq, -, hmem'⟩ := mem_batch hcode'
  obtain ⟨rfl, rfl⟩ := IdentityOp.replaceCodes.inj heq
  rcases w.state.replaceCodes_cases found codes with hsame | ⟨-, -, hids, hhashes⟩
  · rw [hsame] at hok
    cases hok
  · rcases h with h | h
    · exact List.inj_on_of_nodup_map hids hmem hmem' h
    · exact List.inj_on_of_nodup_map hhashes hmem hmem' h

/-- What is known of all codes: an id has one hash and a hash one id, a code in the log is used up
    once, and, if `current`, what a later batch has replaced is not accepted any more. -/
structure CodesKnown (userId : UserId) (current : Bool) (w : RecoveryWorld) : Prop where
  oneHash : ∀ id codeHash codeHash', Seen w id codeHash → Seen w id codeHash' →
    codeHash = codeHash'
  oneId : ∀ id id' codeHash, Seen w id codeHash → Seen w id' codeHash → id = id'
  issued : ∀ event ∈ w.log, ∀ code ∈ batch event, Seen w code.id code.codeHash
  used : ∀ event ∈ w.log, ∀ id, spent event = some id →
    ∃ row ∈ w.state.recoveryCodes.get id, row.consumedAt ≠ none
  once : w.log.Pairwise fun later earlier => ∀ id, spent later = some id → spent earlier ≠ some id
  retired : current = true → ∀ later earlier, [later, earlier].Sublist w.log →
    commits later = true → ∀ code ∈ batch earlier, ∀ row ∈ w.state.recoveryCodes.rows,
      row.userId = userId → row.codeHash = code.codeHash → row.consumedAt ≠ none

theorem CodesKnown.act {user : UserId} (h : CodesKnown userId current w)
    (hask : (replacing userId current).ask i op w)
    (hstamped : ∀ code, op = .consumeRecoveryCode code → code.consumedAt ≠ none) :
    CodesKnown userId current ((recoveryMachine crypto user).act i op w) := by
  obtain ⟨hnew, hcurrent⟩ := hask
  have hissued : ∀ code ∈ batch ⟨i, op, w.state⟩,
      Seen ((recoveryMachine crypto user).act i op w) code.id code.codeHash := by
    intro code hcode
    obtain ⟨found, codes, rfl, hok, hmem⟩ := mem_batch hcode
    refine seen_of_mem ?_
    show code ∈ (w.state.replaceCodes found codes).1.recoveryCodes.rows
    rcases w.state.replaceCodes_cases found codes with hsame | ⟨-, hrows, -, -⟩
    · rw [hsame] at hok
      cases hok
    · rw [hrows]
      exact List.mem_append_right _ hmem
  refine ⟨?_, ?_, ?_, ?_, ?_, ?_⟩
  · intro id codeHash codeHash' hseen hseen'
    rcases seen_of_act hseen with hseen | ⟨code, hcode, rfl, rfl⟩
    · rcases seen_of_act hseen' with hseen' | ⟨code', hcode', rfl, rfl⟩
      · exact h.oneHash id _ _ hseen hseen'
      · exact absurd rfl (unseen_batch hnew hcode' hseen).1
    · rcases seen_of_act hseen' with hseen' | ⟨code', hcode', hid, rfl⟩
      · exact absurd rfl (unseen_batch hnew hcode hseen').1
      · rw [batch_distinct hcode hcode' (Or.inl hid.symm)]
  · intro id id' codeHash hseen hseen'
    rcases seen_of_act hseen with hseen | ⟨code, hcode, rfl, rfl⟩
    · rcases seen_of_act hseen' with hseen' | ⟨code', hcode', rfl, rfl⟩
      · exact h.oneId _ _ codeHash hseen hseen'
      · exact absurd rfl (unseen_batch hnew hcode' hseen).2
    · rcases seen_of_act hseen' with hseen' | ⟨code', hcode', rfl, hhash⟩
      · exact absurd rfl (unseen_batch hnew hcode hseen').2
      · rw [batch_distinct hcode hcode' (Or.inr hhash.symm)]
  · intro event hevent code hcode
    rcases List.mem_cons.mp hevent with rfl | hevent
    · exact hissued code hcode
    · exact (h.issued event hevent code hcode).act
  · intro event hevent id hspent
    rcases List.mem_cons.mp hevent with rfl | hevent
    · obtain ⟨code, rfl, rfl, hok⟩ := spent_some hspent
      show ∃ row ∈ (w.state.consumeRecoveryCode code).1.recoveryCodes.get code.id,
        row.consumedAt ≠ none
      rcases w.state.consumeRecoveryCode_cases code with hsame | ⟨-, row, -, -, hget⟩
      · rw [hsame] at hok
        cases hok
      · rw [hget, if_pos rfl]
        exact ⟨_, rfl, hstamped code rfl⟩
    · exact consumed_act (h.used event hevent id hspent)
  · refine List.pairwise_cons.mpr ⟨fun earlier hearlier id hlater hspent => ?_, h.once⟩
    -- the row is unconsumed for the later one, and used up by the earlier one
    obtain ⟨code, rfl, rfl, hok⟩ := spent_some hlater
    obtain ⟨row, hrow, hconsumed⟩ := h.used earlier hearlier code.id hspent
    rcases w.state.consumeRecoveryCode_cases code with hsame | ⟨-, row', hrow', hnone, -⟩
    · rw [hsame] at hok
      cases hok
    · obtain rfl := Option.some.inj (hrow'.symm.trans hrow)
      exact hconsumed hnone
  · intro htrue later earlier hsub hcommits code hcode row hrow huser hhash hnone
    have hseen : ∀ earlier ∈ w.log, code ∈ batch earlier →
        row ∉ batch ⟨i, op, w.state⟩ := fun earlier hearlier hcode hbatch =>
      (unseen_batch hnew hbatch (h.issued earlier hearlier code hcode)).2 hhash.symm
    rcases List.sublist_cons_iff.mp hsub with hsub | ⟨rest, heq, hsub⟩
    · have hearlier : earlier ∈ w.log := hsub.subset (by simp)
      rcases row_act (i := i) hrow with ⟨old, hold, -, hhash', huser', hold'⟩ | hbatch
      · exact h.retired htrue later earlier hsub hcommits code hcode old hold
          (huser'.trans huser) (hhash'.trans hhash) (hold' hnone).1
      · exact hseen earlier hearlier hcode hbatch
    · obtain ⟨rfl, rfl⟩ := List.cons.inj heq
      have hearlier : earlier ∈ w.log := List.singleton_sublist.mp hsub
      obtain ⟨found, codes, rfl, hok⟩ := commits_iff.mp hcommits
      rcases row_act (i := i) hrow with ⟨old, hold, -, hhash', huser', hold'⟩ | hbatch
      · obtain ⟨hnone', hfound⟩ := hold' hnone
        refine hfound found codes rfl hok (hcurrent htrue old.id ?_)
        refine List.mem_map_of_mem (List.mem_filter.mpr ⟨hold, ?_⟩)
        simp [huser'.trans huser, hnone']
      · exact hseen earlier hearlier hcode hbatch

end Step

/-! ## The calls -/

/-- Nothing seen is forgotten. -/
structure CodesRely (w w' : RecoveryWorld) : Prop where
  seen : ∀ id codeHash, Seen w id codeHash → Seen w' id codeHash
  log : w.log.Sublist w'.log

/-- The operations of both handlers: what is used up is stamped. -/
def Stamped (op : IdentityOp) : Prop :=
  ∀ code, op = .consumeRecoveryCode code → code.consumedAt ≠ none

/-- A redemption that accepts a code has used up its row, and no later batch was there. -/
def RedeemPost (crypto : Crypto) (current : Bool) (code : String) (i : Nat)
    (started : RecoveryWorld) : Bool → RecoveryWorld → Prop
  | false, _ => True
  | true, w => (∃ event ∈ w.own i, ∃ id, spent event = some id ∧ Seen w id (crypto.hash code)) ∧
      (current = true → ∀ later earlier, [later, earlier].Sublist started.log →
        commits later = true → ∀ issued ∈ batch earlier, issued.codeHash ≠ crypto.hash code)

section Calls

variable {crypto : Crypto} {userId : UserId} {current : Bool} {w started : RecoveryWorld} {i : Nat}

abbrev CodesSafe (crypto : Crypto) (userId : UserId) (current : Bool) (i : Nat) {β : Type}
    (Post : β → RecoveryWorld → Prop) : IdentityProc β → RecoveryWorld → Prop :=
  Safe (recoveryMachine crypto userId) (replacing userId current) (CodesKnown userId current)
    CodesRely i Post

variable (crypto) in
theorem codesRely_act (op : IdentityOp) (hinv : CodesKnown userId current w)
    (hstamped : Stamped op) (hask : (replacing userId current).ask i op w) :
    CodesKnown userId current ((recoveryMachine crypto userId).act i op w) ∧
      CodesRely w ((recoveryMachine crypto userId).act i op w) :=
  ⟨hinv.act hask hstamped, fun _ _ hseen => hseen.act, List.sublist_cons_self _ _⟩

theorem safe_redeem (code : String) (hstarted : CodesRely started w) :
    CodesSafe crypto userId current i (RedeemPost crypto current code i started)
      (RedeemRecoveryCodeHandler.execute crypto userId code) w := by
  intro w₁ hinv₁ hrely₁ _ hask₁
  have hread : Stamped (.findRecoveryCode userId (crypto.hash code)) := fun _ heq => by cases heq
  obtain ⟨hinv, hrely⟩ := codesRely_act crypto _ hinv₁ hread hask₁
  refine ⟨hinv, hrely, ?_⟩
  generalize hfound : ((recoveryMachine crypto userId).exec i
    (.findRecoveryCode userId (crypto.hash code)) w₁.state).2 = found
  cases (found : Option RecoveryCode) with
  | none => trivial
  | some row =>
  show Safe _ _ _ _ i _ (if row.isConsumed = true then _ else _) _
  by_cases hconsumed : row.isConsumed = true
  · rw [if_pos hconsumed]
    trivial
  rw [if_neg hconsumed]
  have hnone : row.consumedAt = none := by
    simpa [RecoveryCode.isConsumed] using hconsumed
  have hmem := List.mem_of_head? hfound
  obtain ⟨hrow, huser, hhash⟩ : row ∈ w₁.state.recoveryCodes.rows ∧ row.userId = userId ∧
      row.codeHash = crypto.hash code := by
    simpa [Table.select] using hmem
  have hseen₁ : Seen w₁ row.id (crypto.hash code) := hhash ▸ seen_of_mem hrow
  -- the code is unconsumed, so no later batch has replaced it
  have hretired : current = true → ∀ later earlier, [later, earlier].Sublist started.log →
      commits later = true → ∀ issued ∈ batch earlier, issued.codeHash ≠ crypto.hash code := by
    intro htrue later earlier hsub hcommits issued hissued heq
    exact hinv₁.retired htrue later earlier (hsub.trans (hstarted.log.trans hrely₁.log)) hcommits
      issued hissued row hrow huser (hhash.trans heq.symm) hnone
  intro w₂ hinv₂ hrely₂ _ hask₂
  obtain ⟨hinv, hrely⟩ := codesRely_act crypto .now hinv₂ (by simp [Stamped]) hask₂
  refine ⟨hinv, hrely, ?_⟩
  have hseen₂ := hrely.seen _ _ (hrely₂.seen _ _ hseen₁.act)
  show Safe _ _ _ _ i _ (IdentityProc.ofExcept (row.consume w₂.state.nowMs) >>= _) _
  unfold RecoveryCode.consume
  rw [if_neg (by simp [hnone])]
  intro w₃ hinv₃ hrely₃ _ hask₃
  have hstamped : Stamped (.consumeRecoveryCode
      { row with consumedAt := some w₂.state.nowMs }) := by
    rintro _ heq
    obtain rfl := IdentityOp.consumeRecoveryCode.inj heq
    exact Option.some_ne_none _
  obtain ⟨hinv, hrely⟩ := codesRely_act crypto _ hinv₃ hstamped hask₃
  refine ⟨hinv, hrely, ?_⟩
  generalize hanswer : ((recoveryMachine crypto userId).exec i
    (.consumeRecoveryCode { row with consumedAt := some w₂.state.nowMs }) w₃.state).2 = accepted
  cases (accepted : Bool) with
  | false => trivial
  | true =>
    refine ⟨⟨⟨i, .consumeRecoveryCode { row with consumedAt := some w₂.state.nowMs }, w₃.state⟩,
      ?_, row.id, ?_, hrely.seen _ _ (hrely₃.seen _ _ hseen₂)⟩, hretired⟩
    · rw [Machine.own_act, if_pos rfl]
      exact List.mem_cons_self ..
    · exact if_pos hanswer

theorem asks_issue_stamped (draws : List (String × List UInt8)) :
    (RecoveryCodeIssuer.issue crypto userId draws).Asks Stamped := by
  refine ⟨nofun, fun now => ⟨nofun, fun found => ⟨nofun, fun replaced => ?_⟩⟩⟩
  cases (replaced : Bool) <;> trivial

end Calls

/-- The outline. -/
def codesOutline (crypto : Crypto) (userId : UserId) (current : Bool) :
    Outline (recoveryMachine crypto userId) (replacing userId current) where
  Inv := CodesKnown userId current
  Rely := CodesRely
  refl _ := ⟨fun _ _ h => h, .refl _⟩
  trans huv hvw := ⟨fun id h hseen => hvw.seen id h (huv.seen id h hseen), huv.log.trans hvw.log⟩
  happen _ _ h _ := ⟨⟨h.oneHash, h.oneId, h.issued, h.used, h.once, h.retired⟩, fun _ _ h => h,
    .refl _⟩
  Post
    | .redeem code, i, started, .redeemed accepted, w =>
      RedeemPost crypto current code i started accepted w
    | _, _, _, _, _ => True
  safe command i w _ _ _ := by
    cases command with
    | redeem code =>
      show CodesSafe crypto userId current i _ (RedeemRecoveryCodeHandler.execute _ _ _ >>= _) _
      rw [CodesSafe, safe_bind]
      exact (safe_redeem code ⟨fun _ _ h => h, .refl _⟩).mono fun _ _ h => h
    | issue draws =>
      show CodesSafe crypto userId current i _ (RecoveryCodeIssuer.issue _ _ _ >>= _) _
      rw [CodesSafe, safe_bind]
      have hsafe : CodesSafe crypto userId current i (fun _ _ => True)
          (RecoveryCodeIssuer.issue crypto userId draws) w :=
        .of_asks (fun op w hstamped hinv hask => codesRely_act crypto op hinv hstamped hask)
          (asks_issue_stamped draws)
      exact hsafe.mono fun _ _ _ => trivial

/-- The index of `code_hash`, in a store without a log. -/
def UniqueHashes (store : IdentityStore) : Prop :=
  (store.recoveryCodes.rows.map (·.codeHash)).Nodup

theorem codesKnown_init {store : IdentityStore} {userId : UserId} {current : Bool}
    (hunique : UniqueHashes store) : CodesKnown userId current ⟨store, []⟩ := by
  have hmem : ∀ id codeHash, Seen ⟨store, []⟩ id codeHash →
      ∃ row ∈ store.recoveryCodes.rows, row.id = id ∧ row.codeHash = codeHash := by
    rintro id codeHash ⟨row, hid, hhash, hrow | ⟨_, hevent, -⟩⟩
    · exact ⟨row, hrow, hid, hhash⟩
    · cases hevent
  refine ⟨?_, ?_, nofun, nofun, .nil, fun _ later earlier hsub => by cases hsub⟩
  · intro id codeHash codeHash' hseen hseen'
    obtain ⟨row, hrow, hid, rfl⟩ := hmem _ _ hseen
    obtain ⟨row', hrow', hid', rfl⟩ := hmem _ _ hseen'
    rw [Table.eq_of_key hrow hrow' (hid.trans hid'.symm)]
  · intro id id' codeHash hseen hseen'
    obtain ⟨row, hrow, rfl, hhash⟩ := hmem _ _ hseen
    obtain ⟨row', hrow', rfl, hhash'⟩ := hmem _ _ hseen'
    rw [List.inj_on_of_nodup_map hunique hrow hrow' (hhash.trans hhash'.symm)]

theorem redeemPost_of_redeems {crypto : Crypto} {userId : UserId} {current : Bool}
    {sys : RecoverySystem} {i : Nat} {codeHash : String} {started : RecoveryWorld}
    (hgood : (codesOutline crypto userId current).Good sys)
    (h : Redeems crypto sys i codeHash started) :
    ∃ code, crypto.hash code = codeHash ∧ ∃ w, CodesRely w sys.world ∧
      sys.world.own i = w.own i ∧ RedeemPost crypto current code i started true w := by
  obtain ⟨call, code, hcall, hcommand, hhash, hresult, rfl⟩ := h
  obtain ⟨-, w, hrely, hown, hpost⟩ := hgood.returned hcall hresult
  rw [hcommand] at hpost
  exact ⟨code, hhash, w, hrely, hown, hpost⟩

/-- In every run whose batches are new: a code is redeemed once at most; and if each batch replaces
    all codes that are unconsumed when it is committed, no code is accepted by a redemption that
    starts after a later batch. -/
theorem recovery_codes_retired (crypto : Crypto) (userId : UserId) (store : IdentityStore)
    (moves : RecoveryMoves) (hunique : UniqueHashes store)
    (hnew : (recoveryMachine crypto userId).Along (replacing userId false)
      ⟨⟨store, []⟩, []⟩ moves) :
    RedeemedOnce crypto (recoveryRun crypto userId store moves) ∧
      ((recoveryMachine crypto userId).Along (replacing userId true) ⟨⟨store, []⟩, []⟩ moves →
        RetiredByLater crypto (recoveryRun crypto userId store moves)) := by
  have hgood : ∀ current, (recoveryMachine crypto userId).Along (replacing userId current)
      ⟨⟨store, []⟩, []⟩ moves → (codesOutline crypto userId current).Good
        (recoveryRun crypto userId store moves) := by
    intro current hok
    have hinit : (codesOutline crypto userId current).Good ⟨⟨store, []⟩, []⟩ :=
      Outline.Good.init (codesKnown_init hunique) rfl
    exact (hinit.run hok).1
  constructor
  · intro codeHash i j started started' hi hj
    have hrun := hgood false hnew
    obtain ⟨code, rfl, w, hrely, hown, ⟨event, hevent, id, hspent, hseen⟩, -⟩ :=
      redeemPost_of_redeems hrun hi
    obtain ⟨code', hhash, w', hrely', hown', ⟨event', hevent', id', hspent', hseen'⟩, -⟩ :=
      redeemPost_of_redeems hrun hj
    rw [← hown] at hevent
    rw [← hown'] at hevent'
    obtain ⟨hmem, hcaller⟩ := List.mem_filter.mp hevent
    obtain ⟨hmem', hcaller'⟩ := List.mem_filter.mp hevent'
    obtain rfl := of_decide_eq_true hcaller
    obtain rfl := of_decide_eq_true hcaller'
    -- both have used up the one row with this hash
    rw [hhash] at hseen'
    have hid : id = id' := hrun.inv.oneId id id' _ (hrely.seen _ _ hseen) (hrely'.seen _ _ hseen')
    subst hid
    by_contra hne
    have hdistinct : event ≠ event' := fun heq => hne (congrArg Event.caller heq)
    have hsymm : (recoveryRun crypto userId store moves).world.log.Pairwise fun a b =>
        ¬ (spent a = some id ∧ spent b = some id) :=
      hrun.inv.once.imp fun honce hboth => honce id hboth.1 hboth.2
    have : Std.Symm fun a b : Event IdentityOp IdentityStore =>
        ¬ (spent a = some id ∧ spent b = some id) := ⟨fun _ _ h hboth => h hboth.symm⟩
    exact hsymm.forall hmem hmem' hdistinct ⟨hspent, hspent'⟩
  · intro hcurrent codeHash i started hi later earlier hsub hcommits issued hissued
    obtain ⟨code, rfl, w, -, -, -, hretired⟩ := redeemPost_of_redeems (hgood true hcurrent) hi
    exact hretired rfl later earlier hsub hcommits issued hissued

/-! ### A batch that stays -/

def emptyIdentityStore : IdentityStore := ⟨[], Table.empty, Table.empty, [], 0⟩

/-- Two batches of one code each, one after the other, and then a code of the first. -/
def issuedTwice : RecoveryMoves :=
  .start (.issue [("r1", [0])]) :: List.replicate 3 (.run 0) ++
    .start (.issue [("r2", [1])]) :: List.replicate 3 (.run 1) ++
    .start (.redeem "22222-22222") :: List.replicate 3 (.run 2)

/-- The second looks for codes to delete before the first is committed. -/
def issuedAtOnce : RecoveryMoves :=
  .start (.issue [("r1", [0])]) :: List.replicate 2 (.run 0) ++
    .start (.issue [("r2", [1])]) :: List.replicate 2 (.run 1) ++ .run 0 :: .run 1 ::
    .start (.redeem "22222-22222") :: List.replicate 3 (.run 2)

theorem recovery_codes_retired_issuedTwice :
    RedeemedOnce constantCrypto (recoveryRun constantCrypto ⟨"ann"⟩ emptyIdentityStore
        issuedTwice) ∧
      RetiredByLater constantCrypto (recoveryRun constantCrypto ⟨"ann"⟩ emptyIdentityStore
        issuedTwice) := by
  obtain ⟨honce, hretired⟩ := recovery_codes_retired constantCrypto ⟨"ann"⟩ emptyIdentityStore
    issuedTwice List.nodup_nil (by decide +kernel)
  exact ⟨honce, hretired (by decide +kernel)⟩

/-- The first batch outlives the second: its code is accepted afterwards. -/
theorem earlier_batch_accepted :
    (recoveryMachine constantCrypto ⟨"ann"⟩).Along (replacing ⟨"ann"⟩ false)
        ⟨⟨emptyIdentityStore, []⟩, []⟩ issuedAtOnce ∧
      ¬ RetiredByLater constantCrypto (recoveryRun constantCrypto ⟨"ann"⟩ emptyIdentityStore
        issuedAtOnce) := by
  refine ⟨by decide +kernel, fun hretired => ?_⟩
  have hredeems : Redeems constantCrypto (recoveryRun constantCrypto ⟨"ann"⟩ emptyIdentityStore
      issuedAtOnce) 2 "22222-22222" (recoveryRun constantCrypto ⟨"ann"⟩ emptyIdentityStore
        (issuedAtOnce.take 8)).world := ⟨_, _, rfl, rfl, rfl, rfl, rfl⟩
  -- the two commits are the last two events before the redemption starts
  exact hretired "22222-22222" 2 _ hredeems _ _
    ((List.nil_sublist _).cons_cons _ |>.cons_cons _) rfl
    _ (List.mem_cons_self ..) rfl

end AccessCore
