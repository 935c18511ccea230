/-
  Any number of programs over one shared state, in every order of their operations.

  A `Machine` says what an operation asked for by a caller does to the state, and what happens to
  the state on its own.  A `System` is the shared state, the log of the operations performed so
  far, and the calls in progress.  A move starts a call, performs the next operation of one call,
  or lets an event happen; a run is a list of moves.  A `Conduct` says which moves a run may make.

  An `Outline` is a proof outline for all calls at once: an invariant `Inv` of the world, and a
  relation `Rely` that holds between any two moments of a run.  A program is `Safe` when each of
  its operations keeps both, whatever the others did since its last operation as long as they
  kept both too, and when it ends in its postcondition.  `Outline.Good.run` is the rule: if every
  program is safe where it may start, then every run keeps `Inv` and `Rely`, and every call that
  has returned satisfies its postcondition.

  The log is there for the proofs.  What one caller did (`own`) cannot be changed by another, so a
  program may rely on it; and what the log says in `Inv` is what one call knows of the others.
-/
import AccessCore.Lib.Proc

namespace Interleave

/-- An operation performed: by whom, and on which state. -/
structure Event (Op σ : Type) where
  caller : Nat
  op : Op
  before : σ

/-- The shared state and the operations performed on it, the latest first. -/
structure World (Op σ : Type) where
  state : σ
  log : List (Event Op σ)

/-- What one caller has done. -/
def World.own {Op σ : Type} (w : World Op σ) (i : Nat) : List (Event Op σ) :=
  w.log.filter fun event => event.caller = i

/-- A call in progress: its command, the world it was started in, and the rest of its program. -/
structure Call (κ Op : Type) (Answer : Op → Type) (σ α : Type) where
  command : κ
  started : World Op σ
  rest : Proc Op Answer α

/-- The result of a call that has returned. -/
def Call.result {κ Op : Type} {Answer : Op → Type} {σ α : Type} (call : Call κ Op Answer σ α) :
    Option α :=
  match call.rest with
  | .done a => some a
  | _ => none

structure System (κ Op : Type) (Answer : Op → Type) (σ α : Type) where
  world : World Op σ
  calls : List (Call κ Op Answer σ α)

inductive Move (κ ε : Type) where
  | start (command : κ)
  | run (caller : Nat)
  | event (e : ε)

/-- A call that is the `i`-th to start, and that alone moves then. -/
def Move.alone {κ ε : Type} (i steps : Nat) (command : κ) : List (Move κ ε) :=
  .start command :: List.replicate steps (.run i)

/-- What operations and events do, and the programs that calls run. -/
structure Machine (κ ε Op : Type) (Answer : Op → Type) (σ α : Type) where
  exec : Nat → (op : Op) → σ → σ × Answer op
  event : ε → σ → σ
  program : κ → Proc Op Answer α

/-- Which moves may be made. -/
structure Conduct (κ ε Op σ : Type) where
  start : κ → World Op σ → Prop
  ask : Nat → Op → World Op σ → Prop
  event : ε → World Op σ → Prop

variable {κ ε Op : Type} {Answer : Op → Type} {σ α β : Type}

/-- The operation a call asks for next. -/
def System.pending (sys : System κ Op Answer σ α) (i : Nat) : Option Op :=
  (sys.calls[i]?).bind (·.rest.pending)

/-- Whether a move may be made. -/
def Conduct.permits (C : Conduct κ ε Op σ) (sys : System κ Op Answer σ α) : Move κ ε → Prop
  | .start command => C.start command sys.world
  | .run i => ∀ op ∈ sys.pending i, C.ask i op sys.world
  | .event e => C.event e sys.world

/-- Every move. -/
def Conduct.free : Conduct κ ε Op σ := ⟨fun _ _ => True, fun _ _ _ => True, fun _ _ => True⟩

namespace Machine

variable (M : Machine κ ε Op Answer σ α)

/-- The world after an operation. -/
def act (i : Nat) (op : Op) (w : World Op σ) : World Op σ :=
  ⟨(M.exec i op w.state).1, ⟨i, op, w.state⟩ :: w.log⟩

/-- The world after an event. -/
def happen (e : ε) (w : World Op σ) : World Op σ := ⟨M.event e w.state, w.log⟩

/-- The call after the answer to its pending operation. -/
def advance (i : Nat) (w : World Op σ) (call : Call κ Op Answer σ α) :
    World Op σ × Call κ Op Answer σ α :=
  match call.rest with
  | .call op next => (M.act i op w, { call with rest := next (M.exec i op w.state).2 })
  | _ => (w, call)

def step (sys : System κ Op Answer σ α) : Move κ ε → System κ Op Answer σ α
  | .start command => { sys with
      calls := sys.calls ++ [⟨command, sys.world, M.program command⟩] }
  | .run i =>
    match sys.calls[i]? with
    | some call =>
      let (world, call) := M.advance i sys.world call
      ⟨world, sys.calls.set i call⟩
    | none => sys
  | .event e => { sys with world := M.happen e sys.world }

def run (sys : System κ Op Answer σ α) (moves : List (Move κ ε)) : System κ Op Answer σ α :=
  moves.foldl M.step sys

/-- Every move of a run may be made. -/
def Along (C : Conduct κ ε Op σ) : System κ Op Answer σ α → List (Move κ ε) → Prop
  | _, [] => True
  | sys, move :: moves => C.permits sys move ∧ Along C (M.step sys move) moves

instance Along.decidable (C : Conduct κ ε Op σ) [∀ c w, Decidable (C.start c w)]
    [∀ i op w, Decidable (C.ask i op w)] [∀ e w, Decidable (C.event e w)] :
    ∀ (sys : System κ Op Answer σ α) (moves : List (Move κ ε)), Decidable (M.Along C sys moves)
  | _, [] => .isTrue trivial
  | sys, move :: moves =>
    have : Decidable (C.permits sys move) := match move with
      | .start command => inferInstanceAs (Decidable (C.start command sys.world))
      | .run i => inferInstanceAs (Decidable (∀ op ∈ sys.pending i, C.ask i op sys.world))
      | .event e => inferInstanceAs (Decidable (C.event e sys.world))
    have := Along.decidable C (M.step sys move) moves
    inferInstanceAs (Decidable (_ ∧ _))

variable {M}

@[simp] theorem run_nil (sys : System κ Op Answer σ α) : M.run sys [] = sys := rfl
@[simp] theorem run_cons (sys : System κ Op Answer σ α) (move : Move κ ε)
    (moves : List (Move κ ε)) : M.run sys (move :: moves) = M.run (M.step sys move) moves := rfl

theorem run_append (sys : System κ Op Answer σ α) (before after : List (Move κ ε)) :
    M.run sys (before ++ after) = M.run (M.run sys before) after :=
  List.foldl_append

theorem along_append {C : Conduct κ ε Op σ} {sys : System κ Op Answer σ α}
    {before after : List (Move κ ε)} :
    M.Along C sys (before ++ after) ↔ M.Along C sys before ∧
      M.Along C (M.run sys before) after := by
  induction before generalizing sys with
  | nil => simp [Along]
  | cons move before ih => simp only [List.cons_append, Along, ih, run_cons, and_assoc]

/-- A run may be made when each of its moves may be made where the run has come to. -/
theorem along_iff {C : Conduct κ ε Op σ} {sys : System κ Op Answer σ α}
    {moves : List (Move κ ε)} : M.Along C sys moves ↔
      ∀ before move after, moves = before ++ move :: after →
        C.permits (M.run sys before) move := by
  constructor
  · rintro h before move after rfl
    exact (along_append.mp h).2.1
  · intro h
    induction moves generalizing sys with
    | nil => trivial
    | cons move moves ih =>
      refine ⟨h [] move moves rfl, ih fun before move' after hsplit => ?_⟩
      exact h (move :: before) move' after (by rw [hsplit, List.cons_append])

/-- What two conducts together permit. -/
theorem along_of_both {C C' C'' : Conduct κ ε Op σ}
    (h : ∀ (sys : System κ Op Answer σ α) move, C.permits sys move → C'.permits sys move →
      C''.permits sys move) :
    ∀ {sys : System κ Op Answer σ α} {moves : List (Move κ ε)},
      M.Along C sys moves → M.Along C' sys moves → M.Along C'' sys moves
  | _, [], _, _ => trivial
  | sys, move :: _, hC, hC' =>
    ⟨h sys move hC.1 hC'.1, along_of_both h hC.2 hC'.2⟩

theorem along_free (sys : System κ Op Answer σ α) (moves : List (Move κ ε)) :
    M.Along Conduct.free sys moves := by
  induction moves generalizing sys with
  | nil => trivial
  | cons move moves ih =>
    refine ⟨?_, ih _⟩
    cases move with
    | start command => trivial
    | run i => exact fun _ _ => trivial
    | event e => trivial

/-- What a caller did is changed by its own operations only. -/
theorem own_act (i j : Nat) (op : Op) (w : World Op σ) :
    (M.act i op w).own j = if i = j then ⟨i, op, w.state⟩ :: w.own j else w.own j := by
  simp only [act, World.own, List.filter_cons, decide_eq_true_eq]

@[simp] theorem own_happen (e : ε) (j : Nat) (w : World Op σ) : (M.happen e w).own j = w.own j :=
  rfl

/-- A move of a call that is about to ask for an operation performs it. -/
theorem world_run_pending {sys : System κ Op Answer σ α} {i : Nat} {op : Op}
    (h : sys.pending i = some op) : (M.step sys (.run i)).world = M.act i op sys.world := by
  obtain ⟨call, hcall, hpending⟩ := Option.bind_eq_some_iff.mp h
  cases hrest : call.rest with
  | done a =>
    rw [hrest] at hpending
    cases hpending
  | thrown message =>
    rw [hrest] at hpending
    cases hpending
  | call op' next =>
    rw [hrest] at hpending
    obtain rfl := Option.some.inj hpending
    simp only [step, hcall, advance, hrest]

/-- Otherwise it changes nothing. -/
theorem world_run_none {sys : System κ Op Answer σ α} {i : Nat} (h : sys.pending i = none) :
    (M.step sys (.run i)).world = sys.world := by
  simp only [step]
  cases hcall : sys.calls[i]? with
  | none => rfl
  | some call =>
    have hpending : call.rest.pending = none := by
      simpa [System.pending, hcall] using h
    cases hrest : call.rest with
    | done a => simp only [advance, hrest]
    | thrown message => simp only [advance, hrest]
    | call op next =>
      rw [hrest] at hpending
      cases hpending

/-- A move of a call that has ended changes nothing. -/
theorem step_run_none {sys : System κ Op Answer σ α} {i : Nat} (h : sys.pending i = none) :
    M.step sys (.run i) = sys := by
  simp only [step]
  cases hcall : sys.calls[i]? with
  | none => rfl
  | some call =>
    have hset : sys.calls.set i call = sys.calls := by
      obtain ⟨_, rfl⟩ := List.getElem?_eq_some_iff.mp hcall
      exact List.set_getElem_self _
    have hpending : call.rest.pending = none := by
      simpa [System.pending, hcall] using h
    cases hrest : call.rest with
    | done a => simp only [advance, hrest, hset]
    | thrown message => simp only [advance, hrest, hset]
    | call op next =>
      rw [hrest] at hpending
      cases hpending

/-- A move of one call leaves the others where they are. -/
theorem pending_run_ne {sys : System κ Op Answer σ α} {i j : Nat} (hne : i ≠ j) :
    (M.step sys (.run i)).pending j = sys.pending j := by
  simp only [step]
  cases hcall : sys.calls[i]? with
  | none => rfl
  | some call =>
    show ((sys.calls.set i _)[j]?).bind _ = _
    rw [List.getElem?_set_ne hne]
    rfl

theorem pending_start {sys : System κ Op Answer σ α} (command : κ) {j : Nat}
    (hj : j < sys.calls.length) : (M.step sys (.start command)).pending j = sys.pending j := by
  show ((sys.calls ++ [_])[j]?).bind _ = _
  rw [List.getElem?_append_left hj]
  rfl

theorem calls_length_run (sys : System κ Op Answer σ α) (i : Nat) :
    (M.step sys (.run i)).calls.length = sys.calls.length := by
  simp only [step]
  cases sys.calls[i]? with
  | none => rfl
  | some call => exact List.length_set

/-- Each move of a run is made in a system of which `P` holds with it. -/
def Throughout (M : Machine κ ε Op Answer σ α)
    (P : System κ Op Answer σ α → Move κ ε → Prop) :
    System κ Op Answer σ α → List (Move κ ε) → Prop
  | _, [] => True
  | sys, move :: moves => P sys move ∧ Throughout M P (M.step sys move) moves

instance Throughout.decidable (P : System κ Op Answer σ α → Move κ ε → Prop)
    [∀ sys move, Decidable (P sys move)] : ∀ (sys : System κ Op Answer σ α)
      (moves : List (Move κ ε)), Decidable (M.Throughout P sys moves)
  | _, [] => .isTrue trivial
  | sys, move :: moves =>
    have := Throughout.decidable P (M.step sys move) moves
    inferInstanceAs (Decidable (_ ∧ _))

theorem throughout_append {P : System κ Op Answer σ α → Move κ ε → Prop}
    {sys : System κ Op Answer σ α} {before after : List (Move κ ε)} :
    M.Throughout P sys (before ++ after) ↔
      M.Throughout P sys before ∧ M.Throughout P (M.run sys before) after := by
  induction before generalizing sys with
  | nil => simp [Throughout]
  | cons move before ih =>
    simp only [List.cons_append, Throughout, ih, run_cons, and_assoc]

theorem throughout_and {P Q : System κ Op Answer σ α → Move κ ε → Prop}
    {sys : System κ Op Answer σ α} {moves : List (Move κ ε)} (hP : M.Throughout P sys moves)
    (hQ : M.Throughout Q sys moves) :
    M.Throughout (fun sys move => P sys move ∧ Q sys move) sys moves := by
  induction moves generalizing sys with
  | nil => trivial
  | cons move moves ih => exact ⟨⟨hP.1, hQ.1⟩, ih hP.2 hQ.2⟩

/-- What every move keeps in which `P` holds, a run keeps. -/
theorem run_of_throughout {P : System κ Op Answer σ α → Move κ ε → Prop}
    {Inv : System κ Op Answer σ α → Prop}
    (hstep : ∀ sys move, Inv sys → P sys move → Inv (M.step sys move))
    {sys : System κ Op Answer σ α} {moves : List (Move κ ε)} (h : M.Throughout P sys moves)
    (hinv : Inv sys) : Inv (M.run sys moves) := by
  induction moves generalizing sys with
  | nil => exact hinv
  | cons move moves ih => exact ih h.2 (hstep sys move hinv h.1)

/-- A relation that every permitted operation and event keeps, whatever asks for it, holds over
    every run. -/
theorem run_keeps {C : Conduct κ ε Op σ} {R : World Op σ → World Op σ → Prop}
    (hrefl : ∀ w, R w w) (htrans : ∀ {u v w}, R u v → R v w → R u w)
    (hask : ∀ i op w, C.ask i op w → R w (M.act i op w))
    (hevent : ∀ e w, C.event e w → R w (M.happen e w))
    {sys : System κ Op Answer σ α} {moves : List (Move κ ε)} (hok : M.Along C sys moves) :
    R sys.world (M.run sys moves).world := by
  induction moves generalizing sys with
  | nil => exact hrefl _
  | cons move moves ih =>
    obtain ⟨hmove, hmoves⟩ := hok
    refine htrans ?_ (ih hmoves)
    cases move with
    | start command => exact hrefl _
    | event e => exact hevent e _ hmove
    | run i =>
      cases hpending : sys.pending i with
      | none =>
        rw [world_run_none hpending]
        exact hrefl _
      | some op =>
        rw [world_run_pending hpending]
        exact hask i op _ (hmove op hpending)

/-- A call after a move is a call from before, moved on, or has just started. -/
theorem started_step {sys : System κ Op Answer σ α} {move : Move κ ε} {i : Nat}
    {call : Call κ Op Answer σ α} (h : (M.step sys move).calls[i]? = some call) :
    (∃ call₀, sys.calls[i]? = some call₀ ∧ call₀.started = call.started) ∨
      call.started = sys.world := by
  cases move with
  | start command =>
    simp only [step] at h
    rcases Nat.lt_or_ge i sys.calls.length with hlt | hge
    · rw [List.getElem?_append_left hlt] at h
      exact Or.inl ⟨call, h, rfl⟩
    · rw [List.getElem?_append_right hge] at h
      obtain rfl := List.mem_singleton.mp (List.mem_of_getElem? h)
      exact Or.inr rfl
  | run j =>
    simp only [step] at h
    cases hj : sys.calls[j]? with
    | none =>
      rw [hj] at h
      exact Or.inl ⟨call, h, rfl⟩
    | some call₀ =>
      rw [hj] at h
      by_cases hij : j = i
      · subst hij
        rw [List.getElem?_set_self (List.getElem?_eq_some_iff.mp hj).1] at h
        obtain rfl := Option.some.inj h
        refine Or.inl ⟨call₀, hj, ?_⟩
        unfold advance
        split <;> rfl
      · rw [List.getElem?_set_ne hij] at h
        exact Or.inl ⟨call, h, rfl⟩
  | event e => exact Or.inl ⟨call, h, rfl⟩

/-- The commands of the calls that a list of moves starts. -/
def commands (moves : List (Move κ ε)) : List κ :=
  moves.filterMap fun
    | .start command => some command
    | _ => none

theorem commands_append (before after : List (Move κ ε)) :
    commands (before ++ after) = commands before ++ commands after :=
  List.filterMap_append

/-- The calls of a run have the commands that it has started. -/
theorem commands_run (sys : System κ Op Answer σ α) (moves : List (Move κ ε)) :
    (M.run sys moves).calls.map (·.command) = sys.calls.map (·.command) ++ commands moves := by
  induction moves generalizing sys with
  | nil => exact (List.append_nil _).symm
  | cons move moves ih =>
    rw [run_cons, ih]
    cases move with
    | start command => simp [step, commands]
    | event e => rfl
    | run i =>
      have hstep : (M.step sys (.run i)).calls.map (·.command) = sys.calls.map (·.command) := by
        simp only [step]
        cases hcall : sys.calls[i]? with
        | none => rfl
        | some call =>
          obtain ⟨hlt, rfl⟩ := List.getElem?_eq_some_iff.mp hcall
          have hsame : (M.advance i sys.world sys.calls[i]).2.command = sys.calls[i].command := by
            unfold advance
            split <;> rfl
          show (sys.calls.set i _).map _ = _
          rw [List.map_set, hsame]
          refine Eq.trans ?_ (List.set_getElem_self (by rwa [List.length_map]))
          rw [List.getElem_map]
      rw [hstep]
      rfl

variable (M) in
/-- What a caller has asked for, with the answers. -/
def history (w : World Op σ) (i : Nat) : Proc.History Op Answer :=
  (w.own i).map fun event => ⟨event.op, (M.exec event.caller event.op event.before).2⟩

theorem mem_history {w : World Op σ} {i : Nat} {event : Event Op σ} (h : event ∈ w.own i) :
    ⟨event.op, (M.exec event.caller event.op event.before).2⟩ ∈ M.history w i :=
  List.mem_map.mpr ⟨event, h, rfl⟩

theorem history_act (i j : Nat) (op : Op) (w : World Op σ) :
    M.history (M.act i op w) j =
      if i = j then ⟨op, (M.exec i op w.state).2⟩ :: M.history w j else M.history w j := by
  unfold history
  rw [own_act]
  split_ifs <;> rfl

/-- What each command's program asks for, whatever the answers are, is all that its calls do. -/
structure Asked (M : Machine κ ε Op Answer σ α) (Q : κ → Proc.History Op Answer → Op → Prop)
    (sys : System κ Op Answer σ α) : Prop where
  rest : ∀ (i : Nat) (call : Call κ Op Answer σ α), sys.calls[i]? = some call →
    call.rest.AsksAfter (Q call.command) (M.history sys.world i)
  own : ∀ (i : Nat) (call : Call κ Op Answer σ α), sys.calls[i]? = some call →
    ∀ later asked earlier, M.history sys.world i = later ++ asked :: earlier →
      Q call.command earlier asked.1
  callers : ∀ event ∈ sys.world.log, event.caller < sys.calls.length

section Asked

variable {Q : κ → Proc.History Op Answer → Op → Prop}

theorem Asked.history_nil {sys : System κ Op Answer σ α} (h : Asked M Q sys) {i : Nat}
    (hi : sys.calls.length ≤ i) : M.history sys.world i = [] := by
  have hown : sys.world.own i = [] := by
    rw [World.own, List.filter_eq_nil_iff]
    intro event hevent
    have hlt := h.callers event hevent
    simp only [decide_eq_true_eq]
    omega
  rw [history, hown]
  rfl

theorem Asked.step (hprogram : ∀ command, (M.program command).AsksAfter (Q command) [])
    {sys : System κ Op Answer σ α} (h : Asked M Q sys) (move : Move κ ε) :
    Asked M Q (M.step sys move) := by
  cases move with
  | event e => exact ⟨h.rest, h.own, h.callers⟩
  | start command =>
    have hnew : ∀ (i : Nat) (call : Call κ Op Answer σ α),
        (sys.calls ++ [⟨command, sys.world, M.program command⟩])[i]? = some call →
        sys.calls[i]? = some call ∨
          i = sys.calls.length ∧ call = ⟨command, sys.world, M.program command⟩ := by
      intro i call hcall
      rcases Nat.lt_or_ge i sys.calls.length with hlt | hge
      · rw [List.getElem?_append_left hlt] at hcall
        exact Or.inl hcall
      · rw [List.getElem?_append_right hge] at hcall
        have hi : i - sys.calls.length = 0 := by
          have := (List.getElem?_eq_some_iff.mp hcall).1
          simpa using this
        rw [hi] at hcall
        exact Or.inr ⟨by omega, (Option.some.inj hcall).symm⟩
    -- nobody has acted as the call that starts now
    have hnil := h.history_nil (Nat.le_refl _)
    refine ⟨fun i call hcall => ?_, fun i call hcall later asked earlier hsplit => ?_,
      fun event hevent => ?_⟩
    · rcases hnew i call hcall with hcall | ⟨rfl, rfl⟩
      · exact h.rest i call hcall
      · show (M.program command).AsksAfter (Q command) (M.history sys.world _)
        rw [hnil]
        exact hprogram command
    · rcases hnew i call hcall with hcall | ⟨rfl, rfl⟩
      · exact h.own i call hcall later asked earlier hsplit
      · have hempty : later ++ asked :: earlier = [] := hsplit.symm.trans hnil
        exact absurd hempty (by simp)
    · have := h.callers event hevent
      show event.caller < (sys.calls ++ [_]).length
      rw [List.length_append]
      omega
  | run i =>
    simp only [Machine.step]
    cases hcall : sys.calls[i]? with
    | none => exact h
    | some call =>
      have hi : i < sys.calls.length := (List.getElem?_eq_some_iff.mp hcall).1
      have hset : sys.calls.set i call = sys.calls := by
        obtain ⟨_, rfl⟩ := List.getElem?_eq_some_iff.mp hcall
        exact List.set_getElem_self _
      cases hrest : call.rest with
      | done a =>
        simp only [advance, hrest, hset]
        exact h
      | thrown message =>
        simp only [advance, hrest, hset]
        exact h
      | call op next =>
        have hasks := h.rest i call hcall
        rw [hrest] at hasks
        simp only [advance, hrest]
        refine ⟨fun j call' hcall' => ?_, fun j call' hcall' later asked earlier hsplit => ?_,
          fun event hevent => ?_⟩
        · rw [history_act]
          by_cases hij : i = j
          · subst hij
            rw [List.getElem?_set_self hi] at hcall'
            obtain rfl := Option.some.inj hcall'
            rw [if_pos rfl]
            exact hasks.2 _
          · rw [List.getElem?_set_ne hij] at hcall'
            rw [if_neg hij]
            exact h.rest j call' hcall'
        · rw [history_act] at hsplit
          by_cases hij : i = j
          · subst hij
            rw [List.getElem?_set_self hi] at hcall'
            obtain rfl := Option.some.inj hcall'
            rw [if_pos rfl] at hsplit
            cases later with
            | nil =>
              obtain ⟨rfl, rfl⟩ := List.cons.inj hsplit
              exact hasks.1
            | cons first later =>
              exact h.own i call hcall later asked earlier (List.cons.inj hsplit).2
          · rw [List.getElem?_set_ne hij] at hcall'
            rw [if_neg hij] at hsplit
            exact h.own j call' hcall' later asked earlier hsplit
        · rw [List.length_set]
          rcases List.mem_cons.mp hevent with rfl | hevent
          · exact hi
          · exact h.callers event hevent

theorem Asked.run (hprogram : ∀ command, (M.program command).AsksAfter (Q command) []) {state : σ}
    (moves : List (Move κ ε)) : Asked M Q (M.run ⟨⟨state, []⟩, []⟩ moves) := by
  have hrun : ∀ {sys : System κ Op Answer σ α}, Asked M Q sys → Asked M Q (M.run sys moves) := by
    induction moves with
    | nil => exact fun h => h
    | cons move moves ih => exact fun h => ih (h.step hprogram move)
  exact hrun ⟨fun _ _ hcall => by simp at hcall, fun _ _ hcall => by simp at hcall, by simp⟩

/-- Over a run: the next operation of a call is one that its command's program asks for after what
    it has asked for so far. -/
theorem pending_of_asksAfter (hprogram : ∀ command, (M.program command).AsksAfter (Q command) [])
    {state : σ} {moves : List (Move κ ε)} {i : Nat} {op : Op}
    (hpending : (M.run ⟨⟨state, []⟩, []⟩ moves).pending i = some op) :
    ∃ call, (M.run ⟨⟨state, []⟩, []⟩ moves).calls[i]? = some call ∧
      Q call.command (M.history (M.run ⟨⟨state, []⟩, []⟩ moves).world i) op := by
  obtain ⟨call, hcall, hop⟩ := Option.bind_eq_some_iff.mp hpending
  refine ⟨call, hcall, ?_⟩
  have hasked : Asked M Q (M.run ⟨⟨state, []⟩, []⟩ moves) := Asked.run hprogram moves
  have hrest := hasked.rest i call hcall
  cases hcase : call.rest with
  | done a =>
    rw [hcase] at hop
    cases hop
  | thrown message =>
    rw [hcase] at hop
    cases hop
  | call op' next =>
    rw [hcase] at hop hrest
    obtain rfl := Option.some.inj hop
    exact hrest.1

end Asked

/-- Over a run: a call has only done what its command's program asks for. -/
theorem own_of_asks {Q : κ → Op → Prop} (hprogram : ∀ command, (M.program command).Asks (Q command))
    {state : σ} {moves : List (Move κ ε)} {i : Nat} {call : Call κ Op Answer σ α}
    (hcall : (M.run ⟨⟨state, []⟩, []⟩ moves).calls[i]? = some call) :
    ∀ event ∈ (M.run ⟨⟨state, []⟩, []⟩ moves).world.own i, Q call.command event.op := by
  intro event hevent
  have hasked : Asked M (fun command _ => Q command) (M.run ⟨⟨state, []⟩, []⟩ moves) :=
    Asked.run (fun command => (hprogram command).after []) moves
  obtain ⟨later, earlier, hsplit⟩ := List.append_of_mem (mem_history (M := M) hevent)
  exact hasked.own i call hcall later _ earlier hsplit

/-- An event of a run was asked for by one of its calls. -/
theorem caller_of_asks {Q : κ → Op → Prop}
    (hprogram : ∀ command, (M.program command).Asks (Q command)) {state : σ}
    {moves : List (Move κ ε)} {event : Event Op σ}
    (hevent : event ∈ (M.run ⟨⟨state, []⟩, []⟩ moves).world.log) :
    ∃ call, (M.run ⟨⟨state, []⟩, []⟩ moves).calls[event.caller]? = some call ∧
      Q call.command event.op := by
  have hasked : Asked M (fun command _ => Q command) (M.run ⟨⟨state, []⟩, []⟩ moves) :=
    Asked.run (fun command => (hprogram command).after []) moves
  have hcall := List.getElem?_eq_getElem (hasked.callers event hevent)
  exact ⟨_, hcall, own_of_asks hprogram hcall event (List.mem_filter.mpr ⟨hevent, by simp⟩)⟩

end Machine

/-! ## Proof outlines -/

section Safe

variable (M : Machine κ ε Op Answer σ α) (C : Conduct κ ε Op σ)
  (Inv : World Op σ → Prop) (Rely : World Op σ → World Op σ → Prop) (i : Nat)

/-- Every operation of a program keeps `Inv` and `Rely`, and it returns in `Post`.  Between two of
    its operations others may act, but they keep `Inv` and `Rely` and do nothing in its name. -/
def Safe {β : Type} (Post : β → World Op σ → Prop) : Proc Op Answer β → World Op σ → Prop
  | .done b, w => Post b w
  | .thrown _, _ => True
  | .call op next, w => ∀ w', Inv w' → Rely w w' → w'.own i = w.own i → C.ask i op w' →
      Inv (M.act i op w') ∧ Rely w' (M.act i op w') ∧
        Safe Post (next (M.exec i op w'.state).2) (M.act i op w')

variable {M C Inv Rely i}

@[simp] theorem safe_done {Post : β → World Op σ → Prop} {b : β} {w : World Op σ} :
    Safe M C Inv Rely i Post (.done b) w ↔ Post b w := Iff.rfl

@[simp] theorem safe_thrown {Post : β → World Op σ → Prop} {message : String} {w : World Op σ} :
    Safe M C Inv Rely i Post (.thrown message) w ↔ True := Iff.rfl

theorem safe_call {Post : β → World Op σ → Prop} {op : Op} {next : Answer op → Proc Op Answer β}
    {w : World Op σ} :
    Safe M C Inv Rely i Post (.call op next) w ↔
      ∀ w', Inv w' → Rely w w' → w'.own i = w.own i → C.ask i op w' →
        Inv (M.act i op w') ∧ Rely w' (M.act i op w') ∧
          Safe M C Inv Rely i Post (next (M.exec i op w'.state).2) (M.act i op w') := Iff.rfl

/-- A sequence is safe when its first part is and ends where the second part is. -/
theorem safe_bind {γ : Type} {Post : γ → World Op σ → Prop} (f : β → Proc Op Answer γ) :
    ∀ (p : Proc Op Answer β) (w : World Op σ),
      Safe M C Inv Rely i Post (p >>= f) w ↔
        Safe M C Inv Rely i (fun b => Safe M C Inv Rely i Post (f b)) p w
  | .done _, _ => Iff.rfl
  | .thrown _, _ => Iff.rfl
  | .call op next, w => by
    simp only [Proc.call_bind, safe_call]
    exact forall_congr' fun w' => imp_congr_right fun _ => imp_congr_right fun _ =>
      imp_congr_right fun _ => imp_congr_right fun _ => and_congr_right fun _ =>
        and_congr_right fun _ => safe_bind f (next (M.exec i op w'.state).2) (M.act i op w')

theorem Safe.mono {Post Post' : β → World Op σ → Prop} (h : ∀ b w, Post b w → Post' b w) :
    ∀ {p : Proc Op Answer β} {w : World Op σ},
      Safe M C Inv Rely i Post p w → Safe M C Inv Rely i Post' p w
  | .done b, w, hp => h b w hp
  | .thrown _, _, _ => trivial
  | .call _ _, _, hp => fun w' hinv hrely hown hask =>
    ⟨(hp w' hinv hrely hown hask).1, (hp w' hinv hrely hown hask).2.1,
      Safe.mono h (hp w' hinv hrely hown hask).2.2⟩

/-- What a caller has done stays done. -/
theorem Safe.keeps {Post : β → World Op σ → Prop} {known : List (Event Op σ)} :
    ∀ {p : Proc Op Answer β} {w : World Op σ}, Safe M C Inv Rely i Post p w → known ⊆ w.own i →
      Safe M C Inv Rely i (fun b w' => Post b w' ∧ known ⊆ w'.own i) p w
  | .done _, _, hp, hknown => ⟨hp, hknown⟩
  | .thrown _, _, _, _ => trivial
  | .call op next, w, hp, hknown => fun w' hinv hrely hown hask => by
    obtain ⟨hinv', hrely', hnext⟩ := hp w' hinv hrely hown hask
    refine ⟨hinv', hrely', hnext.keeps ?_⟩
    rw [Machine.own_act, if_pos rfl, hown]
    exact List.subset_cons_of_subset _ hknown

theorem Safe.keeps_own {Post : β → World Op σ → Prop} {p : Proc Op Answer β} {w : World Op σ}
    (h : Safe M C Inv Rely i Post p w) :
    Safe M C Inv Rely i (fun b w' => Post b w' ∧ w.own i ⊆ w'.own i) p w :=
  h.keeps (List.Subset.refl _)

/-- Every program is safe when nothing is asked of it. -/
theorem safe_trivial : ∀ (p : Proc Op Answer β) (w : World Op σ),
    Safe M C (fun _ => True) (fun _ _ => True) i (fun _ _ => True) p w
  | .done _, _ => trivial
  | .thrown _, _ => trivial
  | .call op next, _ => fun w' _ _ _ _ =>
    ⟨trivial, trivial, safe_trivial (next (M.exec i op w'.state).2) (M.act i op w')⟩

/-- A program is safe when each of its operations alone keeps `Inv` and `Rely`. -/
theorem Safe.of_asks {Q : Op → Prop} (h : ∀ op w, Q op → Inv w → C.ask i op w →
      Inv (M.act i op w) ∧ Rely w (M.act i op w)) :
    ∀ {p : Proc Op Answer β} {w : World Op σ}, p.Asks Q →
      Safe M C Inv Rely i (fun _ _ => True) p w
  | .done _, _, _ => trivial
  | .thrown _, _, _ => trivial
  | .call op _, _, hp => fun w' hinv _ _ hask =>
    have hact := h op w' hp.1 hinv hask
    ⟨hact.1, hact.2, Safe.of_asks h (hp.2 _)⟩

/-- A program keeps what its caller knows, when the others and each of its operations do. -/
theorem Safe.keeping {Q : Op → Prop} {Keep : World Op σ → Prop}
    (hothers : ∀ w w', Keep w → Inv w' → Rely w w' → w'.own i = w.own i → Keep w')
    (hact : ∀ op w, Q op → Inv w → Keep w → C.ask i op w →
      Inv (M.act i op w) ∧ Rely w (M.act i op w) ∧ Keep (M.act i op w)) :
    ∀ {p : Proc Op Answer β} {w : World Op σ}, p.Asks Q → Keep w →
      Safe M C Inv Rely i (fun _ w => Keep w) p w
  | .done _, _, _, hkeep => hkeep
  | .thrown _, _, _, _ => trivial
  | .call op _, w, hp, hkeep => fun w' hinv hrely hsame hask =>
    have hstep := hact op w' hp.1 hinv (hothers w w' hkeep hinv hrely hsame) hask
    ⟨hstep.1, hstep.2.1, Safe.keeping hothers hact (hp.2 _) hstep.2.2⟩

/-- A program may rely on what it has asked for so far. -/
theorem Safe.of_asks_own {Q : Op → Prop} (h : ∀ op w, Q op → (∀ event ∈ w.own i, Q event.op) →
      Inv w → C.ask i op w → Inv (M.act i op w) ∧ Rely w (M.act i op w))
    {p : Proc Op Answer β} {w : World Op σ} (hp : p.Asks Q) (hown : ∀ event ∈ w.own i, Q event.op) :
    Safe M C Inv Rely i (fun _ w => ∀ event ∈ w.own i, Q event.op) p w := by
  refine Safe.keeping (fun w w' hkeep _ _ hsame => ?_) (fun op w hop hinv hkeep hask => ?_) hp hown
  · rw [hsame]
    exact hkeep
  · obtain ⟨hinv', hrely⟩ := h op w hop hkeep hinv hask
    refine ⟨hinv', hrely, ?_⟩
    rw [Machine.own_act, if_pos rfl]
    exact List.forall_mem_cons.mpr ⟨hop, hkeep⟩

/-- What a program returns after what it has asked for, its caller does. -/
theorem safe_of_returnsAfter {β : Type} {Q : Proc.History Op Answer → β → Prop} :
    ∀ {p : Proc Op Answer β} {w : World Op σ}, p.ReturnsAfter Q (M.history w i) →
      Safe M C (fun _ => True) (fun _ _ => True) i (fun b w => Q (M.history w i) b) p w
  | .done _, _, hp => hp
  | .thrown _, _, _ => trivial
  | .call op next, w, hp => by
    intro w' _ _ hown _
    refine ⟨trivial, trivial, safe_of_returnsAfter ?_⟩
    have hpast : M.history w' i = M.history w i := by
      rw [Machine.history, hown]
      rfl
    rw [Machine.history_act, if_pos rfl, hpast]
    exact hp _

end Safe

/-- A proof outline for every program of a machine. -/
structure Outline (M : Machine κ ε Op Answer σ α) (C : Conduct κ ε Op σ) where
  Inv : World Op σ → Prop
  Rely : World Op σ → World Op σ → Prop
  refl : ∀ w, Rely w w
  trans : ∀ {u v w}, Rely u v → Rely v w → Rely u w
  happen : ∀ e w, Inv w → C.event e w → Inv (M.happen e w) ∧ Rely w (M.happen e w)
  Post : κ → Nat → World Op σ → α → World Op σ → Prop
  safe : ∀ command i w, Inv w → C.start command w → w.own i = [] →
    Safe M C Inv Rely i (Post command i w) (M.program command) w

namespace Outline

variable {M : Machine κ ε Op Answer σ α} {C : Conduct κ ε Op σ} (O : Outline M C)

/-- Where a call may stand: its remaining program is safe from some earlier moment on. -/
def Stands (w : World Op σ) (i : Nat) (call : Call κ Op Answer σ α) : Prop :=
  O.Rely call.started w ∧ ∃ v, O.Rely v w ∧ w.own i = v.own i ∧
    Safe M C O.Inv O.Rely i (O.Post call.command i call.started) call.rest v

/-- What every move keeps. -/
structure Good (sys : System κ Op Answer σ α) : Prop where
  inv : O.Inv sys.world
  stands : ∀ i call, sys.calls[i]? = some call → O.Stands sys.world i call
  /-- only calls that have started are in the log -/
  callers : ∀ event ∈ sys.world.log, event.caller < sys.calls.length

variable {O}

theorem own_eq_nil {sys : System κ Op Answer σ α} (h : O.Good sys) {i : Nat}
    (hi : sys.calls.length ≤ i) : sys.world.own i = [] := by
  rw [World.own, List.filter_eq_nil_iff]
  intro event hevent
  have hlt := h.callers event hevent
  simp only [decide_eq_true_eq]
  omega

/-- A call stands after anything that keeps `Rely` and does nothing in its name. -/
theorem Stands.later {w w' : World Op σ} {i : Nat} {call : Call κ Op Answer σ α}
    (h : O.Stands w i call) (hrely : O.Rely w w') (hown : w'.own i = w.own i) :
    O.Stands w' i call := by
  obtain ⟨hstart, v, hv, hvown, hsafe⟩ := h
  exact ⟨O.trans hstart hrely, v, O.trans hv hrely, hown.trans hvown, hsafe⟩

theorem Good.init {w : World Op σ} (hinv : O.Inv w) (hlog : w.log = []) :
    O.Good ⟨w, []⟩ where
  inv := hinv
  stands := by simp
  callers := by simp [hlog]

theorem set_eq_self {γ : Type} {l : List γ} {i : Nat} {x : γ} (h : l[i]? = some x) :
    l.set i x = l := by
  obtain ⟨hlt, rfl⟩ := List.getElem?_eq_some_iff.mp h
  exact List.set_getElem_self hlt

/-- The step lemma: a permitted move keeps the outline and `Rely`. -/
theorem Good.step {sys : System κ Op Answer σ α} {move : Move κ ε} (h : O.Good sys)
    (hok : C.permits sys move) :
    O.Good (M.step sys move) ∧ O.Rely sys.world (M.step sys move).world := by
  cases move with
  | start command =>
    refine ⟨⟨h.inv, ?_, ?_⟩, O.refl _⟩
    · intro i call hcall
      simp only [Machine.step] at hcall
      rcases Nat.lt_or_ge i sys.calls.length with hlt | hge
      · rw [List.getElem?_append_left hlt] at hcall
        exact h.stands i call hcall
      · -- the call that starts now
        have hnew := own_eq_nil h hge
        rw [List.getElem?_append_right hge] at hcall
        obtain rfl := List.mem_singleton.mp (List.mem_of_getElem? hcall)
        exact ⟨O.refl _, sys.world, O.refl _, rfl, O.safe command i sys.world h.inv hok hnew⟩
    · intro event hevent
      have hlt := h.callers event hevent
      simp only [Machine.step, List.length_append, List.length_singleton]
      omega
  | run i =>
    simp only [Machine.step]
    cases hcall : sys.calls[i]? with
    | none => exact ⟨h, O.refl _⟩
    | some call =>
      have hi : i < sys.calls.length := (List.getElem?_eq_some_iff.mp hcall).1
      obtain ⟨hstart, v, hv, hown, hsafe⟩ := h.stands i call hcall
      cases hrest : call.rest with
      | done a =>
        have hset : sys.calls.set i call = sys.calls := set_eq_self hcall
        simp only [Machine.advance, hrest, hset]
        exact ⟨h, O.refl _⟩
      | thrown message =>
        have hset : sys.calls.set i call = sys.calls := set_eq_self hcall
        simp only [Machine.advance, hrest, hset]
        exact ⟨h, O.refl _⟩
      | call op next =>
        rw [hrest] at hsafe
        have hask : C.ask i op sys.world := by
          apply hok op
          simp [System.pending, hcall, hrest, Proc.pending]
        obtain ⟨hinv, hrely, hnext⟩ := hsafe sys.world h.inv hv hown hask
        simp only [Machine.advance, hrest]
        refine ⟨⟨hinv, ?_, ?_⟩, hrely⟩
        · intro j call' hcall'
          by_cases hij : i = j
          · subst hij
            rw [List.getElem?_set_self hi] at hcall'
            obtain rfl := Option.some.inj hcall'
            exact ⟨O.trans hstart hrely, _, O.refl _, rfl, hnext⟩
          · rw [List.getElem?_set_ne hij] at hcall'
            refine (h.stands j call' hcall').later hrely ?_
            rw [Machine.own_act, if_neg hij]
        · intro event hevent
          rw [List.length_set]
          rcases List.mem_cons.mp hevent with rfl | hevent
          · exact hi
          · exact h.callers event hevent
  | event e =>
    obtain ⟨hinv, hrely⟩ := O.happen e sys.world h.inv hok
    exact ⟨⟨hinv, fun i call hcall => (h.stands i call hcall).later hrely rfl, h.callers⟩, hrely⟩

/-- The run lemma. -/
theorem Good.run {sys : System κ Op Answer σ α} {moves : List (Move κ ε)} (h : O.Good sys)
    (hok : M.Along C sys moves) :
    O.Good (M.run sys moves) ∧ O.Rely sys.world (M.run sys moves).world := by
  induction moves generalizing sys with
  | nil => exact ⟨h, O.refl _⟩
  | cons move moves ih =>
    obtain ⟨hmove, hmoves⟩ := hok
    obtain ⟨hgood, hrely⟩ := h.step hmove
    obtain ⟨hfinal, hrest⟩ := ih hgood hmoves
    exact ⟨hfinal, O.trans hrely hrest⟩

/-- What an operation would do to the invariant, while a call is about to ask for it. -/
theorem Good.inv_act {sys : System κ Op Answer σ α} (h : O.Good sys) {i : Nat} {op : Op}
    (hop : sys.pending i = some op) (hask : C.ask i op sys.world) :
    O.Inv (M.act i op sys.world) := by
  have hok : C.permits sys (.run i) := by
    intro op' hop'
    obtain rfl := Option.some.inj (hop.symm.trans hop')
    exact hask
  have hinv := (h.step hok).1.inv
  rw [Machine.world_run_pending hop] at hinv
  exact hinv

/-- A conduct, with what an outline has shown of every run: its invariant holds before and after
    each move. -/
def given (O : Outline M C) (C' : Conduct κ ε Op σ) : Conduct κ ε Op σ where
  start command w := C'.start command w ∧ O.Inv w
  ask i op w := C'.ask i op w ∧ O.Inv w ∧ O.Inv (M.act i op w)
  event e w := C'.event e w ∧ O.Inv w

/-- One outline's invariant may be used in another outline for the same runs. -/
theorem Good.along_given {C' : Conduct κ ε Op σ} {sys : System κ Op Answer σ α}
    {moves : List (Move κ ε)} (h : O.Good sys) (hok : M.Along C sys moves)
    (hok' : M.Along C' sys moves) : M.Along (O.given C') sys moves := by
  induction moves generalizing sys with
  | nil => trivial
  | cons move moves ih =>
    obtain ⟨hmove, hmoves⟩ := hok
    obtain ⟨hmove', hmoves'⟩ := hok'
    obtain ⟨hgood, _⟩ := h.step hmove
    refine ⟨?_, ih hgood hmoves hmoves'⟩
    cases move with
    | start command => exact ⟨hmove', h.inv⟩
    | event e => exact ⟨hmove', h.inv⟩
    | run i =>
      intro op hop
      have hafter : (M.step sys (.run i)).world = M.act i op sys.world :=
        Machine.world_run_pending hop
      exact ⟨hmove' op hop, h.inv, hafter ▸ hgood.inv⟩

/-- A call that has returned did so in its postcondition, at a moment since which only others have
    acted. -/
theorem Good.returned {sys : System κ Op Answer σ α} (h : O.Good sys) {i : Nat}
    {call : Call κ Op Answer σ α} (hcall : sys.calls[i]? = some call) {a : α}
    (hresult : call.result = some a) :
    O.Rely call.started sys.world ∧ ∃ v, O.Rely v sys.world ∧ sys.world.own i = v.own i ∧
      O.Post call.command i call.started a v := by
  obtain ⟨hstart, v, hv, hown, hsafe⟩ := h.stands i call hcall
  refine ⟨hstart, v, hv, hown, ?_⟩
  unfold Call.result at hresult
  cases hrest : call.rest with
  | done b =>
    rw [hrest] at hresult hsafe
    obtain rfl := Option.some.inj hresult
    exact hsafe
  | thrown message => rw [hrest] at hresult; cases hresult
  | call op next => rw [hrest] at hresult; cases hresult

/-- The outline of what the calls return after what they have asked for. -/
def ofReturns {Q : κ → Proc.History Op Answer → α → Prop}
    (hprogram : ∀ command, (M.program command).ReturnsAfter (Q command) []) :
    Outline M (Conduct.free : Conduct κ ε Op σ) where
  Inv _ := True
  Rely _ _ := True
  refl _ := trivial
  trans _ _ := trivial
  happen _ _ _ _ := ⟨trivial, trivial⟩
  Post command i _ a w := Q command (M.history w i) a
  safe command i w _ _ hown := by
    have hpast : M.history w i = [] := by
      rw [Machine.history, hown]
      rfl
    exact safe_of_returnsAfter (hpast ▸ hprogram command)

/-- Over a run: what a call has returned is what its command's program returns after what the call
    has asked for. -/
theorem returned_after {Q : κ → Proc.History Op Answer → α → Prop}
    (hprogram : ∀ command, (M.program command).ReturnsAfter (Q command) []) {state : σ}
    {moves : List (Move κ ε)} {i : Nat} {call : Call κ Op Answer σ α}
    (hcall : (M.run ⟨⟨state, []⟩, []⟩ moves).calls[i]? = some call) {a : α}
    (hresult : call.result = some a) :
    Q call.command (M.history (M.run ⟨⟨state, []⟩, []⟩ moves).world i) a := by
  have hinit : (ofReturns hprogram).Good ⟨⟨state, []⟩, []⟩ := Good.init trivial rfl
  have hgood := (hinit.run (Machine.along_free _ moves)).1
  obtain ⟨-, v, -, hown, hpost⟩ := hgood.returned hcall hresult
  rw [Machine.history, hown]
  exact hpost

/-- A call that a run starts, starts in a world that `Rely` relates to the world before the run. -/
theorem Good.started_later {sys : System κ Op Answer σ α} {moves : List (Move κ ε)} (h : O.Good sys)
    (hok : M.Along C sys moves) {i : Nat} (hi : sys.calls.length ≤ i)
    {call : Call κ Op Answer σ α} (hcall : (M.run sys moves).calls[i]? = some call) :
    O.Rely sys.world call.started := by
  induction moves using List.reverseRecOn generalizing call with
  | nil =>
    rw [Machine.run_nil, List.getElem?_eq_none hi] at hcall
    cases hcall
  | append_singleton moves move ih =>
    obtain ⟨hmoves, -⟩ := Machine.along_append.mp hok
    rw [Machine.run_append] at hcall
    rcases Machine.started_step hcall with ⟨call₀, hcall₀, hstarted⟩ | hstarted
    · exact hstarted ▸ ih hmoves hcall₀
    · exact hstarted ▸ (h.run hmoves).2

end Outline

end Interleave
