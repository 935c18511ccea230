/-
  The buffered decision log (`authz/infrastructure/persistence/buffered-decision-log.ts`).

  `record` puts an entry into the buffer, or writes it to the sink itself when the buffer is full.
  A flush drains the buffer batch by batch; a flush while another one is running is the same flush.
  `close` flushes until the buffer is empty.

  The code runs on one thread and is suspended where it waits: for the sink, for the flush that is
  running, for the `finally` that clears it.  A drain runs up to its first call of the sink at once.
  Between two suspension points anything may happen, in any order, and each call of the sink
  succeeds or fails.

  An entry is told by the call of `record` it came with.  The lists that no code reads (what was
  recorded, handed to the sink, persisted and so on) are the history.  The lag of a flush is only
  observed and is left out, and so are the fields of an entry.
-/
import Mathlib

namespace AccessCore

/-! ## The log -/

structure DecisionLogBufferOptions where
  maxBufferSize : Nat
  flushBatchSize : Nat

/-- An entry, with the number of the call that recorded it. -/
structure LogEntry (ε : Type) where
  call : Nat
  entry : ε

/-- Where a drain is suspended: its batch is with the sink, or it has ended and is to be cleared. -/
inductive DrainStage (ε : Type) where
  | sending (batch : List (LogEntry ε))
  | settled

def DrainStage.batch {ε : Type} : DrainStage ε → List (LogEntry ε)
  | .sending batch => batch
  | .settled => []

structure Drain (ε : Type) where
  id : Nat
  stage : DrainStage ε

/-- The counters of decision log records, and the gauge of the buffer's depth. -/
structure DecisionLogMetrics where
  flushed : Nat
  dropped : Nat
  degraded : Nat
  bufferDepth : Nat

/-- A `flushing` promise is the number of its drain; `closers` are the promises that calls of
    `close` wait for; `direct` are the degraded writes in flight. -/
structure BufferedDecisionLog (ε : Type) where
  buffer : List (LogEntry ε)
  timer : Bool
  flushing : Option Nat
  drains : List (Drain ε)
  started : Nat
  closers : List Nat
  direct : List (LogEntry ε)
  metrics : DecisionLogMetrics
  recorded : List (LogEntry ε)
  handed : List (LogEntry ε)
  persisted : List (LogEntry ε)
  dropped : List (LogEntry ε)
  directPersisted : List (LogEntry ε)
  thrown : List (LogEntry ε)
  lastChecks : List (List (LogEntry ε))

/-- A call of `record`, `flush` or `close`; a tick of the timer; the sink answers a batch; a drain
    that has ended is cleared; a `close` goes on; the sink answers a direct write. -/
inductive LogEvent (ε : Type) where
  | record (entry : ε)
  | flush
  | tick
  | close
  | batchSettles (id : Nat) (succeeded : Bool)
  | cleared (id : Nat)
  | closeResumes (i : Nat)
  | directSettles (i : Nat) (succeeded : Bool)

/-- The entry that a call of `record` comes with. -/
def LogEvent.entry? {ε : Type} : LogEvent ε → Option ε
  | .record entry => some entry
  | _ => none

namespace BufferedDecisionLog

variable {ε : Type}

def start : BufferedDecisionLog ε :=
  ⟨[], true, none, [], 0, [], [], ⟨0, 0, 0, 0⟩, [], [], [], [], [], [], []⟩

section Code

variable (options : DecisionLogBufferOptions) (log : BufferedDecisionLog ε)

/-- The loop of `drain`, up to where it is suspended or ends. -/
def drain : BufferedDecisionLog ε × DrainStage ε :=
  if 0 < log.buffer.length then
    let batch := log.buffer.take options.flushBatchSize
    let rest := log.buffer.drop options.flushBatchSize
    ({ log with
      buffer := rest
      metrics := { log.metrics with bufferDepth := rest.length }
      handed := log.handed ++ batch }, .sending batch)
  else (log, .settled)

/-- `flush`, with the promise it returns. -/
def flush : BufferedDecisionLog ε × Nat :=
  match log.flushing with
  | some id => (log, id)
  | none =>
    let drained := log.drain options
    ({ drained.1 with
      flushing := some log.started
      drains := drained.1.drains ++ [⟨log.started, drained.2⟩]
      started := log.started + 1 }, log.started)

def record (entry : ε) : BufferedDecisionLog ε :=
  let entry : LogEntry ε := ⟨log.recorded.length, entry⟩
  let recorded := log.recorded ++ [entry]
  if options.maxBufferSize ≤ log.buffer.length then
    { log with
      metrics := { log.metrics with degraded := log.metrics.degraded + 1 }
      direct := log.direct ++ [entry]
      recorded := recorded
      handed := log.handed ++ [entry] }
  else
    let buffer := log.buffer ++ [entry]
    let log := { log with
      buffer := buffer
      metrics := { log.metrics with bufferDepth := buffer.length }
      recorded := recorded }
    if options.flushBatchSize ≤ buffer.length then (log.flush options).1 else log

def close : BufferedDecisionLog ε :=
  let flushed := { log with timer := false }.flush options
  { flushed.1 with closers := flushed.1.closers ++ [flushed.2] }

/-- The rest of the loop of `drain`, when the sink has answered its batch. -/
def batchSettles (id : Nat) (succeeded : Bool) : BufferedDecisionLog ε :=
  match log.drains.find? (·.id = id) with
  | some ⟨_, .sending batch⟩ =>
    let metrics := log.metrics
    let log :=
      if succeeded then { log with
        metrics := { metrics with flushed := metrics.flushed + batch.length }
        persisted := log.persisted ++ batch }
      else { log with
        metrics := { metrics with dropped := metrics.dropped + batch.length }
        dropped := log.dropped ++ batch }
    let drained := log.drain options
    { drained.1 with
      drains := drained.1.drains.map fun d => if d.id = id then ⟨id, drained.2⟩ else d }
  | _ => log

/-- The `finally` of `flush`. -/
def cleared (id : Nat) : BufferedDecisionLog ε :=
  match log.drains.find? (·.id = id) with
  | some ⟨_, .settled⟩ => { log with
      flushing := none
      drains := log.drains.filter fun d => d.id ≠ id }
  | _ => log

/-- The loop condition of `close`, when the flush it waited for is over. -/
def closeResumes (i : Nat) : BufferedDecisionLog ε :=
  match log.closers[i]? with
  | none => log
  | some id =>
    if log.drains.any (·.id = id) then log
    else if 0 < log.buffer.length then
      let flushed := log.flush options
      { flushed.1 with closers := flushed.1.closers.set i flushed.2 }
    else { log with
      closers := log.closers.eraseIdx i
      lastChecks := log.lastChecks ++ [log.buffer] }

/-- The sink has answered a degraded write; a failure is thrown to the caller of `record`. -/
def directSettles (i : Nat) (succeeded : Bool) : BufferedDecisionLog ε :=
  match log.direct[i]? with
  | none => log
  | some entry =>
    let direct := log.direct.eraseIdx i
    if succeeded then { log with
      direct := direct
      directPersisted := log.directPersisted ++ [entry] }
    else { log with
      direct := direct
      thrown := log.thrown ++ [entry] }

/-- One event; one that cannot happen changes nothing. -/
def step : LogEvent ε → BufferedDecisionLog ε
  | .record entry => log.record options entry
  | .flush => (log.flush options).1
  | .tick => if log.timer then (log.flush options).1 else log
  | .close => log.close options
  | .batchSettles id succeeded => log.batchSettles options id succeeded
  | .cleared id => log.cleared id
  | .closeResumes i => log.closeResumes options i
  | .directSettles i succeeded => log.directSettles i succeeded

def run (events : List (LogEvent ε)) : BufferedDecisionLog ε :=
  events.foldl (step options) log

/-- The batches that are with the sink. -/
def sending : List (LogEntry ε) := log.drains.flatMap (·.stage.batch)

/-- The drains that have not ended. -/
def running : List (Drain ε) :=
  log.drains.filter fun d => match d.stage with
    | .sending _ => true
    | .settled => false

/-- The places an entry can be in: the buffer, the batch being sent, persisted, dropped, or a direct
    write that is in flight, persisted or thrown. -/
def places (sending : List (LogEntry ε)) : Multiset (LogEntry ε) :=
  log.buffer + sending + log.persisted + log.dropped + log.direct + log.directPersisted +
    log.thrown

end Code

/-! ## The accounts -/

variable {options : DecisionLogBufferOptions} {log : BufferedDecisionLog ε}

/-- The accounts of a log whose `sending` entries are with the sink. -/
structure Books (options : DecisionLogBufferOptions) (log : BufferedDecisionLog ε)
    (sending : List (LogEntry ε)) : Prop where
  numbered : log.recorded.map (·.call) = List.range log.recorded.length
  accounted : (log.recorded : Multiset (LogEntry ε)) = log.places sending
  handedOnce : (log.handed : Multiset (LogEntry ε)) + log.buffer = log.recorded
  bounded : log.buffer.length ≤ options.maxBufferSize
  flushed : log.metrics.flushed = log.persisted.length
  dropped : log.metrics.dropped = log.dropped.length
  depth : log.metrics.bufferDepth = log.buffer.length
  emptied : ∀ buffer ∈ log.lastChecks, buffer = []

/-- The accounts, and that the flush that is running is the only drain. -/
structure Ok (options : DecisionLogBufferOptions) (log : BufferedDecisionLog ε) : Prop where
  books : Books options log log.sending
  single : (log.drains = [] ∧ log.flushing = none) ∨
    ∃ drain, log.drains = [drain] ∧ log.flushing = some drain.id

theorem Ok.start : Ok options (BufferedDecisionLog.start : BufferedDecisionLog ε) := by
  refine ⟨⟨rfl, rfl, rfl, Nat.zero_le _, rfl, rfl, rfl, ?_⟩, Or.inl ⟨rfl, rfl⟩⟩
  intro buffer hbuffer
  cases hbuffer

theorem Books.drain (h : Books options log []) :
    Books options (log.drain options).1 (log.drain options).2.batch := by
  unfold BufferedDecisionLog.drain
  split_ifs with hsome
  · have hsplit : (log.buffer.take options.flushBatchSize : Multiset (LogEntry ε)) +
        log.buffer.drop options.flushBatchSize = log.buffer := by
      rw [Multiset.coe_add, List.take_append_drop]
    constructor
    · exact h.numbered
    · have haccounted := h.accounted
      unfold places at haccounted ⊢
      show (log.recorded : Multiset (LogEntry ε)) =
        log.buffer.drop options.flushBatchSize + log.buffer.take options.flushBatchSize +
          log.persisted + log.dropped + log.direct + log.directPersisted + log.thrown
      rw [haccounted, ← hsplit]
      simp only [Multiset.coe_nil, add_zero]
      rw [add_comm (log.buffer.take _ : Multiset (LogEntry ε))]
    · have hhanded := h.handedOnce
      show ((log.handed ++ log.buffer.take options.flushBatchSize : List (LogEntry ε)) :
        Multiset (LogEntry ε)) + log.buffer.drop options.flushBatchSize = log.recorded
      rw [← Multiset.coe_add, add_assoc, hsplit]
      exact hhanded
    · have hbounded := h.bounded
      have hle : (log.buffer.drop options.flushBatchSize).length ≤ log.buffer.length := by
        rw [List.length_drop]
        omega
      exact le_trans hle hbounded
    · exact h.flushed
    · exact h.dropped
    · rfl
    · exact h.emptied
  · exact h

theorem drain_drains : (log.drain options).1.drains = log.drains := by
  unfold drain
  split_ifs <;> rfl

theorem drain_flushing : (log.drain options).1.flushing = log.flushing := by
  unfold drain
  split_ifs <;> rfl

/-- A flush leaves the accounts right, and one drain at most. -/
theorem Ok.flush (h : log.Ok options) : (log.flush options).1.Ok options := by
  unfold BufferedDecisionLog.flush
  rcases h.single with ⟨hdrains, hflushing⟩ | ⟨drain, hdrains, hflushing⟩
  · rw [hflushing]
    dsimp only
    have hbooks := h.books
    unfold sending at hbooks
    rw [hdrains] at hbooks
    have hdrained := Books.drain hbooks
    have hnone : (log.drain options).1.drains = [] := by
      rw [drain_drains]
      exact hdrains
    refine ⟨?_, Or.inr ⟨⟨log.started, (log.drain options).2⟩, ?_, rfl⟩⟩
    · have hsending : sending { (log.drain options).1 with
          flushing := some log.started
          drains := (log.drain options).1.drains ++ [⟨log.started, (log.drain options).2⟩]
          started := log.started + 1 } = (log.drain options).2.batch := by
        unfold sending
        rw [hnone]
        exact List.append_nil _
      rw [hsending]
      exact ⟨hdrained.numbered, hdrained.accounted, hdrained.handedOnce, hdrained.bounded,
        hdrained.flushed, hdrained.dropped, hdrained.depth, hdrained.emptied⟩
    · rw [hnone]
      rfl
  · rw [hflushing]
    exact h

/-- The accounts do not depend on who waits, nor on the timer. -/
theorem Ok.wait (h : log.Ok options) (timer : Bool) (closers : List Nat) :
    Ok options { log with timer := timer, closers := closers } where
  books := ⟨h.books.numbered, h.books.accounted, h.books.handedOnce, h.books.bounded,
    h.books.flushed, h.books.dropped, h.books.depth, h.books.emptied⟩
  single := h.single

/-- A recorded entry goes into the buffer, or is written directly. -/
theorem Ok.record (h : log.Ok options) (entry : ε) : (log.record options entry).Ok options := by
  have hnumbered : ∀ e : LogEntry ε, e.call = log.recorded.length →
      (log.recorded ++ [e]).map (·.call) = List.range (log.recorded ++ [e]).length := by
    intro e he
    rw [List.map_append, List.length_append, List.length_singleton, List.range_succ,
      h.books.numbered, List.map_singleton, he]
  have haccounted := h.books.accounted
  have hhanded := h.books.handedOnce
  unfold places at haccounted
  unfold BufferedDecisionLog.record
  dsimp only
  split_ifs with hfull hflush
  · refine ⟨⟨hnumbered _ rfl, ?_, ?_, h.books.bounded, h.books.flushed, h.books.dropped,
      h.books.depth, h.books.emptied⟩, h.single⟩
    · show ((log.recorded ++ [_] : List (LogEntry ε)) : Multiset (LogEntry ε)) =
        log.buffer + log.sending + log.persisted + log.dropped + ((log.direct ++ [_] :
          List (LogEntry ε)) : Multiset (LogEntry ε)) + log.directPersisted + log.thrown
      rw [← Multiset.coe_add, ← Multiset.coe_add, haccounted]
      abel
    · show ((log.handed ++ [_] : List (LogEntry ε)) : Multiset (LogEntry ε)) + log.buffer =
        ((log.recorded ++ [_] : List (LogEntry ε)) : Multiset (LogEntry ε))
      rw [← Multiset.coe_add, ← Multiset.coe_add, ← hhanded]
      abel
  all_goals
    have hbuffered : Ok options { log with
        buffer := log.buffer ++ [⟨log.recorded.length, entry⟩]
        metrics := { log.metrics with
          bufferDepth := (log.buffer ++ [(⟨log.recorded.length, entry⟩ : LogEntry ε)]).length }
        recorded := log.recorded ++ [⟨log.recorded.length, entry⟩] } := by
      refine ⟨⟨hnumbered _ rfl, ?_, ?_, ?_, h.books.flushed, h.books.dropped, rfl,
        h.books.emptied⟩, h.single⟩
      · show ((log.recorded ++ [_] : List (LogEntry ε)) : Multiset (LogEntry ε)) =
          ((log.buffer ++ [_] : List (LogEntry ε)) : Multiset (LogEntry ε)) + log.sending +
            log.persisted + log.dropped + log.direct + log.directPersisted + log.thrown
        rw [← Multiset.coe_add, ← Multiset.coe_add, haccounted]
        abel
      · show (log.handed : Multiset (LogEntry ε)) +
          ((log.buffer ++ [_] : List (LogEntry ε)) : Multiset (LogEntry ε)) =
            ((log.recorded ++ [_] : List (LogEntry ε)) : Multiset (LogEntry ε))
        rw [← Multiset.coe_add, ← Multiset.coe_add, ← hhanded]
        abel
      · show (log.buffer ++ [_]).length ≤ options.maxBufferSize
        rw [List.length_append, List.length_singleton]
        omega
  · exact hbuffered.flush
  · exact hbuffered

/-- The answer of the sink moves the batch, and the drain goes on. -/
theorem Ok.batchSettles (h : log.Ok options) (id : Nat) (succeeded : Bool) :
    (log.batchSettles options id succeeded).Ok options := by
  unfold BufferedDecisionLog.batchSettles
  rcases h.single with ⟨hdrains, hflushing⟩ | ⟨⟨drainId, stage⟩, hdrains, hflushing⟩
  · rw [hdrains]
    exact h
  · rw [hdrains]
    by_cases hid : drainId = id
    · subst hid
      have hfind : [(⟨drainId, stage⟩ : Drain ε)].find? (·.id = drainId) =
          some ⟨drainId, stage⟩ := by
        simp
      rw [hfind]
      cases stage with
      | settled => exact h
      | sending batch =>
        dsimp only
        have haccounted := h.books.accounted
        unfold places sending at haccounted
        rw [hdrains] at haccounted
        have hsent : [(⟨drainId, .sending batch⟩ : Drain ε)].flatMap (·.stage.batch) = batch :=
          List.append_nil _
        rw [hsent] at haccounted
        -- Once the batch has a place, nothing is with the sink.
        have hresumes : ∀ moved : BufferedDecisionLog ε, Books options moved [] →
            moved.drains = log.drains → moved.flushing = log.flushing →
            Ok options { (moved.drain options).1 with
              drains := (moved.drain options).1.drains.map fun d =>
                if d.id = drainId then ⟨drainId, (moved.drain options).2⟩ else d } := by
          intro moved hbooks hsame hsameFlushing
          have hdrained := hbooks.drain
          have hone : ((moved.drain options).1.drains.map fun d =>
              if d.id = drainId then (⟨drainId, (moved.drain options).2⟩ : Drain ε) else d) =
                [⟨drainId, (moved.drain options).2⟩] := by
            rw [drain_drains, hsame, hdrains]
            simp
          rw [hone]
          refine ⟨?_, Or.inr ⟨_, rfl, ?_⟩⟩
          · have hsending : sending { (moved.drain options).1 with
                drains := [⟨drainId, (moved.drain options).2⟩] } = (moved.drain options).2.batch :=
              List.append_nil _
            rw [hsending]
            exact ⟨hdrained.numbered, hdrained.accounted, hdrained.handedOnce, hdrained.bounded,
              hdrained.flushed, hdrained.dropped, hdrained.depth, hdrained.emptied⟩
          · show (moved.drain options).1.flushing = _
            rw [drain_flushing, hsameFlushing, hflushing]
        cases succeeded with
        | true =>
          refine hresumes _ ⟨h.books.numbered, ?_, h.books.handedOnce, h.books.bounded, ?_,
            h.books.dropped, h.books.depth, h.books.emptied⟩ hdrains.symm rfl
          · show (log.recorded : Multiset (LogEntry ε)) = log.buffer + 0 +
              ((log.persisted ++ batch : List (LogEntry ε)) : Multiset (LogEntry ε)) + log.dropped +
                log.direct + log.directPersisted + log.thrown
            rw [haccounted, ← Multiset.coe_add]
            abel
          · show log.metrics.flushed + batch.length = (log.persisted ++ batch).length
            rw [List.length_append, h.books.flushed]
        | false =>
          refine hresumes _ ⟨h.books.numbered, ?_, h.books.handedOnce, h.books.bounded,
            h.books.flushed, ?_, h.books.depth, h.books.emptied⟩ hdrains.symm rfl
          · show (log.recorded : Multiset (LogEntry ε)) = log.buffer + 0 + log.persisted +
              ((log.dropped ++ batch : List (LogEntry ε)) : Multiset (LogEntry ε)) +
                log.direct + log.directPersisted + log.thrown
            rw [haccounted, ← Multiset.coe_add]
            abel
          · show log.metrics.dropped + batch.length = (log.dropped ++ batch).length
            rw [List.length_append, h.books.dropped]
    · have hfind : [(⟨drainId, stage⟩ : Drain ε)].find? (·.id = id) = none := by simp [hid]
      rw [hfind]
      exact h

/-- Clearing a drain that has ended leaves none. -/
theorem Ok.cleared (h : log.Ok options) (id : Nat) : (log.cleared id).Ok options := by
  unfold BufferedDecisionLog.cleared
  rcases h.single with ⟨hdrains, hflushing⟩ | ⟨⟨drainId, stage⟩, hdrains, hflushing⟩
  · rw [hdrains]
    exact h
  · rw [hdrains]
    by_cases hid : drainId = id
    · subst hid
      have hfind : [(⟨drainId, stage⟩ : Drain ε)].find? (·.id = drainId) =
          some ⟨drainId, stage⟩ := by
        simp
      rw [hfind]
      cases stage with
      | sending batch => exact h
      | settled =>
        have hnone : [(⟨drainId, .settled⟩ : Drain ε)].filter (fun d => d.id ≠ drainId) = [] := by
          simp
        dsimp only
        rw [hnone]
        have hbooks := h.books
        have hsending : log.sending = [] := by
          unfold sending
          rw [hdrains]
          rfl
        rw [hsending] at hbooks
        exact ⟨⟨hbooks.numbered, hbooks.accounted, hbooks.handedOnce, hbooks.bounded,
          hbooks.flushed, hbooks.dropped, hbooks.depth, hbooks.emptied⟩, Or.inl ⟨rfl, rfl⟩⟩
    · have hfind : [(⟨drainId, stage⟩ : Drain ε)].find? (·.id = id) = none := by simp [hid]
      rw [hfind]
      exact h

/-- A `close` goes on with another flush, or ends with an empty buffer. -/
theorem Ok.closeResumes (h : log.Ok options) (i : Nat) :
    (log.closeResumes options i).Ok options := by
  unfold BufferedDecisionLog.closeResumes
  cases log.closers[i]? with
  | none => exact h
  | some id =>
    dsimp only
    split_ifs with hwaits hmore
    · exact h
    · exact h.flush.wait _ _
    · have hempty : log.buffer = [] := List.eq_nil_of_length_eq_zero (by omega)
      refine ⟨⟨h.books.numbered, h.books.accounted, h.books.handedOnce, h.books.bounded,
        h.books.flushed, h.books.dropped, h.books.depth, ?_⟩, h.single⟩
      intro buffer hbuffer
      rcases List.mem_append.mp hbuffer with hbuffer | hbuffer
      · exact h.books.emptied buffer hbuffer
      · rw [List.mem_singleton.mp hbuffer]
        exact hempty

/-- The answer to a direct write moves its entry. -/
theorem Ok.directSettles (h : log.Ok options) (i : Nat) (succeeded : Bool) :
    (log.directSettles i succeeded).Ok options := by
  unfold BufferedDecisionLog.directSettles
  cases hentry : log.direct[i]? with
  | none => exact h
  | some entry =>
    obtain ⟨hi, rfl⟩ := List.getElem?_eq_some_iff.mp hentry
    have hmoved : (log.direct : Multiset (LogEntry ε)) =
        log.direct.eraseIdx i + {log.direct[i]} := by
      rw [add_comm, Multiset.singleton_add, Multiset.cons_coe, Multiset.coe_eq_coe]
      exact (List.getElem_cons_eraseIdx_perm hi).symm
    have haccounted := h.books.accounted
    unfold places at haccounted
    rw [hmoved] at haccounted
    dsimp only
    split_ifs with hok
    · refine ⟨⟨h.books.numbered, ?_, h.books.handedOnce, h.books.bounded, h.books.flushed,
        h.books.dropped, h.books.depth, h.books.emptied⟩, h.single⟩
      show (log.recorded : Multiset (LogEntry ε)) = log.buffer + log.sending + log.persisted +
        log.dropped + log.direct.eraseIdx i + ((log.directPersisted ++ [log.direct[i]] :
          List (LogEntry ε)) : Multiset (LogEntry ε)) + log.thrown
      rw [haccounted, ← Multiset.coe_add, Multiset.coe_singleton]
      abel
    · refine ⟨⟨h.books.numbered, ?_, h.books.handedOnce, h.books.bounded, h.books.flushed,
        h.books.dropped, h.books.depth, h.books.emptied⟩, h.single⟩
      show (log.recorded : Multiset (LogEntry ε)) = log.buffer + log.sending + log.persisted +
        log.dropped + log.direct.eraseIdx i + log.directPersisted +
          ((log.thrown ++ [log.direct[i]] :
          List (LogEntry ε)) : Multiset (LogEntry ε))
      rw [haccounted, ← Multiset.coe_add, Multiset.coe_singleton]
      abel

/-! ## What is recorded -/

@[simp] theorem recorded_drain : (log.drain options).1.recorded = log.recorded := by
  unfold drain
  split_ifs <;> rfl

@[simp] theorem recorded_flush : (log.flush options).1.recorded = log.recorded := by
  unfold flush
  cases log.flushing with
  | none => exact recorded_drain
  | some id => rfl

/-- A call of `record` is the latest one recorded, whether its entry is buffered or not. -/
theorem recorded_record (entry : ε) :
    (log.record options entry).recorded = log.recorded ++ [⟨log.recorded.length, entry⟩] := by
  unfold record
  dsimp only
  split_ifs with hfull hflush
  · rfl
  · exact recorded_flush
  · rfl

/-- Nothing is recorded by anything else. -/
theorem recorded_other {event : LogEvent ε} (h : event.entry? = none) :
    (log.step options event).recorded = log.recorded := by
  cases event with
  | record entry => cases h
  | flush => exact recorded_flush
  | tick =>
    unfold step
    dsimp only
    split_ifs
    · exact recorded_flush
    · rfl
  | close =>
    show ({ log with timer := false }.flush options).1.recorded = log.recorded
    exact recorded_flush
  | batchSettles id succeeded =>
    show (log.batchSettles options id succeeded).recorded = _
    unfold batchSettles
    split
    · dsimp only
      rw [recorded_drain]
      split_ifs <;> rfl
    · rfl
  | cleared id =>
    show (log.cleared id).recorded = _
    unfold cleared
    split <;> rfl
  | closeResumes i =>
    show (log.closeResumes options i).recorded = _
    unfold closeResumes
    cases log.closers[i]? with
    | none => rfl
    | some id =>
      dsimp only
      split_ifs
      · rfl
      · exact recorded_flush
      · rfl
  | directSettles i succeeded =>
    show (log.directSettles i succeeded).recorded = _
    unfold directSettles
    cases log.direct[i]? with
    | none => rfl
    | some entry =>
      dsimp only
      split_ifs <;> rfl

/-- What is recorded is what `record` was called with, in the order of the calls. -/
theorem recorded_run (events : List (LogEvent ε)) :
    (log.run options events).recorded.map (·.entry) =
      log.recorded.map (·.entry) ++ events.filterMap LogEvent.entry? := by
  induction events generalizing log with
  | nil => exact (List.append_nil _).symm
  | cons event events ih =>
    show ((log.step options event).run options events).recorded.map _ = _
    rw [ih]
    cases hentry : event.entry? with
    | none => rw [recorded_other hentry, List.filterMap_cons_none hentry]
    | some entry =>
      obtain rfl : event = .record entry := by
        cases event with
        | record _ => exact congrArg LogEvent.record (Option.some.inj hentry)
        | _ => cases hentry
      rw [List.filterMap_cons_some hentry]
      show (log.record options entry).recorded.map _ ++ _ = _
      rw [recorded_record, List.map_append, List.append_assoc]
      rfl

/-! ## Runs -/

/-- **The step lemma.** -/
theorem Ok.step (h : log.Ok options) (event : LogEvent ε) :
    (log.step options event).Ok options := by
  cases event with
  | record entry => exact h.record entry
  | flush => exact h.flush
  | tick =>
    unfold BufferedDecisionLog.step
    dsimp only
    split_ifs
    · exact h.flush
    · exact h
  | close => exact (h.wait false log.closers).flush.wait _ _
  | batchSettles id succeeded => exact h.batchSettles id succeeded
  | cleared id => exact h.cleared id
  | closeResumes i => exact h.closeResumes i
  | directSettles i succeeded => exact h.directSettles i succeeded

/-- **The run lemma.** -/
theorem Ok.run (h : log.Ok options) (events : List (LogEvent ε)) :
    (log.run options events).Ok options := by
  induction events generalizing log with
  | nil => exact h
  | cons event events ih => exact ih (h.step event)

end BufferedDecisionLog

/-- **The buffered decision log conserves entries.**  After any events what is recorded are the
    entries of the calls of `record`, which are told apart, each entry is in exactly one place, each
    that has left the buffer was handed to the sink, and none was handed to it twice; one drain at
    most is running; the buffer is within its size; the counter of dropped records counts the
    dropped entries; and every `close` that ended found the buffer empty. -/
theorem entries_conserved {ε : Type} (options : DecisionLogBufferOptions)
    (events : List (LogEvent ε)) :
    let log := (BufferedDecisionLog.start : BufferedDecisionLog ε).run options events
    log.recorded.map (·.entry) = events.filterMap LogEvent.entry? ∧
      (log.recorded.map (·.call)).Nodup ∧
      (log.recorded : Multiset (LogEntry ε)) = log.places log.sending ∧
      (log.handed : Multiset (LogEntry ε)) + log.buffer = log.recorded ∧
      (log.handed.map (·.call)).Nodup ∧
      log.running.length ≤ 1 ∧
      log.buffer.length ≤ options.maxBufferSize ∧
      log.metrics.dropped = log.dropped.length ∧
      ∀ buffer ∈ log.lastChecks, buffer = [] := by
  intro log
  have h : log.Ok options := BufferedDecisionLog.Ok.start.run events
  have hdistinct : (log.recorded.map (·.call)).Nodup := by
    rw [h.books.numbered]
    exact List.nodup_range
  refine ⟨BufferedDecisionLog.recorded_run events, hdistinct, h.books.accounted,
    h.books.handedOnce, ?_, ?_, h.books.bounded, h.books.dropped, h.books.emptied⟩
  · have hcalls := congrArg (Multiset.map (·.call)) h.books.handedOnce
    rw [Multiset.map_add, Multiset.map_coe, Multiset.map_coe] at hcalls
    have hall : ((log.recorded.map (·.call) : List Nat) : Multiset Nat).Nodup := hdistinct
    rw [← Multiset.map_coe, ← hcalls] at hall
    exact (Multiset.nodup_add.mp hall).1
  · have hrunning : log.running.length ≤ log.drains.length := List.length_filter_le _ _
    rcases h.single with ⟨hdrains, -⟩ | ⟨drain, hdrains, -⟩
    · rw [hdrains] at hrunning
      exact le_trans hrunning (Nat.zero_le _)
    · rw [hdrains] at hrunning
      exact hrunning

/-- Two entries, one failed batch, a direct write, and a `close` that waits for the flush. -/
example :
    let log := (BufferedDecisionLog.start : BufferedDecisionLog Unit).run ⟨1, 1⟩
      [.record (), .record (), .record (), .close, .batchSettles 0 true, .batchSettles 0 false,
        .closeResumes 0, .cleared 0, .directSettles 0 true, .closeResumes 0]
    (log.persisted.map (·.call), log.dropped.map (·.call), log.directPersisted.map (·.call),
      log.lastChecks.length) = ([0], [1], [2], 1) := by decide

end AccessCore
