/-
  Programs that stop at a failing operation.

  `after exec n p s` is the state that the first `n` operations of a program leave, and the rest of
  the program.  `failAfter` is what the caller is left with when the next operation fails: the
  failure changes nothing, and its exception leaves the program.  A program that has ended before
  does not see the failure, so with `n` large enough this is the undisturbed run (`failAfter_eval`).

  What a program does to a state under failures is answered part by part.  `Reaches` says that a
  program reads for some operations and either ends there or goes on as another one: up to that
  point a failure leaves everything as it is (`Reaches.state`), and from there on it is a failure
  of the rest (`Reaches.rest`).  What every operation keeps is kept at each point (`after_keeps`).
-/
import AccessCore.Lib.Proc

namespace Proc

variable {Op : Type} {Answer : Op → Type} {α σ : Type}
variable (exec : (op : Op) → σ → σ × Answer op)

/-- The state after the first `n` operations of a program run alone, and what is left to run. -/
def after : Nat → Proc Op Answer α → σ → σ × Proc Op Answer α
  | n + 1, .call op next, s => after n (next (exec op s).2) (exec op s).1
  | _, p, s => (s, p)

/-- What the caller of a program sees when its next operation fails. -/
def outcome : Proc Op Answer α → Except String α
  | .done a => .ok a
  | .thrown message => .error message
  | .call _ _ => .error "the operation failed"

/-- The state and the outcome when the operation after the first `n` fails. -/
def failAfter (n : Nat) (p : Proc Op Answer α) (s : σ) : σ × Except String α :=
  ((after exec n p s).1, (after exec n p s).2.outcome)

@[simp] theorem after_zero (p : Proc Op Answer α) (s : σ) : after exec 0 p s = (s, p) := by
  cases p <;> rfl

@[simp] theorem after_done (n : Nat) (a : α) (s : σ) :
    after exec n (.done a : Proc Op Answer α) s = (s, .done a) := by
  cases n <;> rfl

@[simp] theorem after_thrown (n : Nat) (message : String) (s : σ) :
    after exec n (.thrown message : Proc Op Answer α) s = (s, .thrown message) := by
  cases n <;> rfl

@[simp] theorem after_call (n : Nat) (op : Op) (next : Answer op → Proc Op Answer α) (s : σ) :
    after exec (n + 1) (.call op next) s = after exec n (next (exec op s).2) (exec op s).1 := rfl

/-- A run is cut in two: the second part starts where the first has got to. -/
theorem after_add (n : Nat) : ∀ (m : Nat) (p : Proc Op Answer α) (s : σ),
    after exec (m + n) p s = after exec n (after exec m p s).2 (after exec m p s).1
  | 0, p, s => by simp
  | m + 1, .done a, s => by simp
  | m + 1, .thrown message, s => by simp
  | m + 1, .call op next, s => by
    have hsum : m + 1 + n = m + n + 1 := by omega
    rw [hsum, after_call, after_call]
    exact after_add n m _ _

theorem failAfter_add (m n : Nat) (p : Proc Op Answer α) (s : σ) :
    failAfter exec (m + n) p s = failAfter exec n (after exec m p s).2 (after exec m p s).1 := by
  rw [failAfter, failAfter, after_add]

/-- Some number of operations is enough for the undisturbed run. -/
theorem failAfter_eval : ∀ (p : Proc Op Answer α) (s : σ),
    ∃ k, ∀ n, k ≤ n → failAfter exec n p s = p.eval exec s
  | .done a, s => ⟨0, fun n _ => by simp [failAfter, outcome]⟩
  | .thrown message, s => ⟨0, fun n _ => by simp [failAfter, outcome]⟩
  | .call op next, s => by
    obtain ⟨k, hk⟩ := failAfter_eval (next (exec op s).2) (exec op s).1
    refine ⟨k + 1, fun n hn => ?_⟩
    obtain ⟨m, rfl⟩ := Nat.exists_eq_add_of_le' hn
    have hm : k ≤ m + k := Nat.le_add_left k m
    exact hk (m + k) hm

/-- From `s`, at most `k` operations that leave the state as it is end the program, or `k` of them
bring it to the program `next`. -/
def Reaches (k : Nat) (p : Proc Op Answer α) (s : σ) (next : Option (Proc Op Answer α)) : Prop :=
  (∀ n ≤ k, (after exec n p s).1 = s) ∧
    ∃ rest, after exec k p s = (s, rest) ∧
      match next with
      | none => ∀ n, after exec n rest s = (s, rest)
      | some q => rest = q

variable {exec}

theorem reaches_done {k : Nat} {a : α} {s : σ} :
    Reaches exec k (.done a : Proc Op Answer α) s none :=
  ⟨fun n _ => by rw [after_done], _, after_done _ _ _ _, fun _ => after_done _ _ _ _⟩

theorem reaches_thrown {k : Nat} {message : String} {s : σ} :
    Reaches exec k (.thrown message : Proc Op Answer α) s none :=
  ⟨fun n _ => by rw [after_thrown], _, after_thrown _ _ _ _, fun _ => after_thrown _ _ _ _⟩

theorem reaches_self {p : Proc Op Answer α} {s : σ} : Reaches exec 0 p s (some p) := by
  refine ⟨fun n hn => ?_, p, after_zero _ _ _, rfl⟩
  obtain rfl := Nat.le_zero.mp hn
  rw [after_zero]

/-- An operation that only reads. -/
theorem reaches_call {k : Nat} {op : Op} {next : Answer op → Proc Op Answer α} {s : σ}
    {q : Option (Proc Op Answer α)} (hread : (exec op s).1 = s)
    (h : Reaches exec k (next (exec op s).2) s q) : Reaches exec (k + 1) (.call op next) s q := by
  obtain ⟨hstate, rest, hrest, hnext⟩ := h
  refine ⟨fun n hn => ?_, rest, ?_, hnext⟩
  · cases n with
    | zero => rw [after_zero]
    | succ n =>
      rw [after_call, hread]
      exact hstate n (Nat.le_of_succ_le_succ hn)
  · rw [after_call, hread]
    exact hrest

/-- Until the rest is reached, a failure leaves everything as it is. -/
theorem Reaches.state {k n : Nat} {p : Proc Op Answer α} {s : σ} {q : Option (Proc Op Answer α)}
    (h : Reaches exec k p s q) (hn : n ≤ k ∨ q = none) : (failAfter exec n p s).1 = s := by
  obtain ⟨hstate, rest, hrest, hnext⟩ := h
  rcases Nat.le_total n k with hle | hge
  · exact hstate n hle
  · obtain ⟨m, rfl⟩ := Nat.exists_eq_add_of_le hge
    rw [failAfter, after_add, hrest]
    rcases hn with hle | rfl
    · obtain rfl : m = 0 := by omega
      rw [after_zero]
    · rw [hnext m]

/-- From then on, a failure is one of the rest. -/
theorem Reaches.rest {k : Nat} {p q : Proc Op Answer α} {s : σ} (h : Reaches exec k p s (some q))
    (n : Nat) : failAfter exec (k + n) p s = failAfter exec n q s := by
  obtain ⟨-, rest, hrest, rfl⟩ := h
  rw [failAfter_add, hrest]

/-- What each operation keeps is kept at every point. -/
theorem after_keeps {Q : Op → Prop} (Inv : σ → Prop)
    (h : ∀ op s, Q op → Inv s → Inv (exec op s).1) :
    ∀ {n : Nat} {p : Proc Op Answer α} {s : σ}, p.Asks Q → Inv s → Inv (after exec n p s).1
  | 0, _, _, _, hs => by simpa using hs
  | _ + 1, .done _, _, _, hs => by simpa using hs
  | _ + 1, .thrown _, _, _, hs => by simpa using hs
  | _ + 1, .call op next, s, hp, hs => by
    rw [after_call]
    exact after_keeps Inv h (hp.2 _) (h op s hp.1 hs)

/-! ## Operations that are programs -/

/-- The program with each of its operations carried out by a program over another interface. -/
def interpret {Op' : Type} {Answer' : Op' → Type}
    (implement : (op : Op) → Proc Op' Answer' (Answer op)) : Proc Op Answer α → Proc Op' Answer' α
  | .done a => .done a
  | .thrown message => .thrown message
  | .call op next => implement op >>= fun answer => interpret implement (next answer)

end Proc
