/-
  Programs over an interface of operations.

  A program has returned, has thrown, or asks for one operation and goes on with the answer.  What
  an operation does to a shared state is not part of the program: `eval` runs one program alone
  against a given semantics, and `Lib.Interleave` runs any number of them against one state, one
  operation at a time.
-/
import Mathlib

/-- A program over the operations `Op`; `Answer op` is what the operation `op` returns. -/
inductive Proc (Op : Type) (Answer : Op → Type) (α : Type) where
  | done (result : α)
  | thrown (message : String)
  | call (op : Op) (next : Answer op → Proc Op Answer α)

namespace Proc

variable {Op : Type} {Answer : Op → Type} {α β γ σ : Type}

/-- The program that asks for one operation. -/
def ask (op : Op) : Proc Op Answer (Answer op) := .call op .done

def bind : Proc Op Answer α → (α → Proc Op Answer β) → Proc Op Answer β
  | .done a, f => f a
  | .thrown message, _ => .thrown message
  | .call op next, f => .call op fun answer => bind (next answer) f

instance : Monad (Proc Op Answer) where
  pure := .done
  bind := bind

@[simp] theorem pure_eq (a : α) : (pure a : Proc Op Answer α) = .done a := rfl
@[simp] theorem done_bind (a : α) (f : α → Proc Op Answer β) : (Proc.done a >>= f) = f a := rfl
@[simp] theorem thrown_bind (message : String) (f : α → Proc Op Answer β) :
    ((Proc.thrown message : Proc Op Answer α) >>= f) = .thrown message := rfl
@[simp] theorem call_bind (op : Op) (next : Answer op → Proc Op Answer α)
    (f : α → Proc Op Answer β) :
    (Proc.call op next >>= f) = .call op fun answer => next answer >>= f := rfl

theorem bind_done : ∀ p : Proc Op Answer α, (p >>= Proc.done) = p
  | .done _ => rfl
  | .thrown _ => rfl
  | .call op next => congrArg (Proc.call op) (funext fun answer => bind_done (next answer))

@[simp] theorem bind_assoc (f : α → Proc Op Answer β) (g : β → Proc Op Answer γ) :
    ∀ p : Proc Op Answer α, (p >>= f >>= g) = p >>= fun a => f a >>= g
  | .done _ => rfl
  | .thrown _ => rfl
  | .call op next => congrArg (Proc.call op) (funext fun answer => bind_assoc f g (next answer))

/-- The operation a program asks for next. -/
def pending : Proc Op Answer α → Option Op
  | .call op _ => some op
  | _ => none

/-- The program over a wider interface, whose operations answer as its own do. -/
def via {Op' : Type} {Answer' : Op' → Type} (inject : Op → Op')
    (answers : ∀ op, Answer' (inject op) → Answer op) : Proc Op Answer α → Proc Op' Answer' α
  | .done a => .done a
  | .thrown message => .thrown message
  | .call op next => .call (inject op) fun answer => via inject answers (next (answers op answer))

theorem via_bind {Op' : Type} {Answer' : Op' → Type} {inject : Op → Op'}
    {answers : ∀ op, Answer' (inject op) → Answer op} (f : α → Proc Op Answer β) :
    ∀ p : Proc Op Answer α,
      (p >>= f).via inject answers = p.via inject answers >>= fun a => (f a).via inject answers
  | .done _ => rfl
  | .thrown _ => rfl
  | .call op next => congrArg (Proc.call (inject op)) (funext fun answer =>
    via_bind f (next (answers op answer)))

/-- Whatever the answers are, every operation asked for is in `Q`. -/
def Asks (Q : Op → Prop) : Proc Op Answer α → Prop
  | .call op next => Q op ∧ ∀ answer, Asks Q (next answer)
  | _ => True

theorem asks_trivial : ∀ p : Proc Op Answer α, p.Asks fun _ => True
  | .done _ => trivial
  | .thrown _ => trivial
  | .call _ next => ⟨trivial, fun answer => asks_trivial (next answer)⟩

theorem asks_ask {Q : Op → Prop} {op : Op} (h : Q op) : (ask op : Proc Op Answer _).Asks Q :=
  ⟨h, fun _ => trivial⟩

theorem Asks.mono {Q Q' : Op → Prop} (h : ∀ op, Q op → Q' op) :
    ∀ {p : Proc Op Answer α}, p.Asks Q → p.Asks Q'
  | .done _, _ => trivial
  | .thrown _, _ => trivial
  | .call _ _, hp => ⟨h _ hp.1, fun answer => Asks.mono h (hp.2 answer)⟩

theorem asks_bind {Q : Op → Prop} {f : α → Proc Op Answer β} (hf : ∀ a, (f a).Asks Q) :
    ∀ {p : Proc Op Answer α}, p.Asks Q → (p >>= f).Asks Q
  | .done a, _ => hf a
  | .thrown _, _ => trivial
  | .call _ _, hp => ⟨hp.1, fun answer => asks_bind hf (hp.2 answer)⟩

theorem asks_via {Op' : Type} {Answer' : Op' → Type} {inject : Op → Op'}
    {answers : ∀ op, Answer' (inject op) → Answer op} {Q : Op → Prop} {Q' : Op' → Prop}
    (h : ∀ op, Q op → Q' (inject op)) :
    ∀ {p : Proc Op Answer α}, p.Asks Q → (p.via inject answers).Asks Q'
  | .done _, _ => trivial
  | .thrown _, _ => trivial
  | .call op _, hp => ⟨h op hp.1, fun answer => asks_via h (hp.2 (answers op answer))⟩

/-- What has been asked for and answered so far, the latest first. -/
abbrev History (Op : Type) (Answer : Op → Type) : Type := List ((op : Op) × Answer op)

/-- Every operation asked for is in `Q` of what has been asked for before it. -/
def AsksAfter (Q : History Op Answer → Op → Prop) : History Op Answer → Proc Op Answer α → Prop
  | past, .call op next =>
    Q past op ∧ ∀ answer, AsksAfter Q (⟨op, answer⟩ :: past) (next answer)
  | _, _ => True

theorem Asks.after {Q : Op → Prop} : ∀ {p : Proc Op Answer α}, p.Asks Q →
    ∀ past, p.AsksAfter (fun _ => Q) past
  | .done _, _, _ => trivial
  | .thrown _, _, _ => trivial
  | .call _ _, hp, _ => ⟨hp.1, fun answer => (hp.2 answer).after _⟩

theorem AsksAfter.asks {Q : History Op Answer → Op → Prop} {Q' : Op → Prop}
    (h : ∀ past op, Q past op → Q' op) :
    ∀ {p : Proc Op Answer α} {past}, p.AsksAfter Q past → p.Asks Q'
  | .done _, _, _ => trivial
  | .thrown _, _, _ => trivial
  | .call op _, past, hp => ⟨h past op hp.1, fun answer => AsksAfter.asks h (hp.2 answer)⟩

theorem AsksAfter.map {Q : History Op Answer → Op → Prop} (g : α → β) :
    ∀ {p : Proc Op Answer α} {past}, p.AsksAfter Q past →
      (p >>= fun a => .done (g a)).AsksAfter Q past
  | .done _, _, _ => trivial
  | .thrown _, _, _ => trivial
  | .call _ _, _, hp => ⟨hp.1, fun answer => (hp.2 answer).map g⟩

/-- A sequence whose first part asks for `Q'` only, which keeps what is known of the past. -/
theorem asksAfter_bind {Q : History Op Answer → Op → Prop} {Q' : Op → Prop}
    {Known : History Op Answer → Prop} (hQ : ∀ past op, Known past → Q' op → Q past op)
    (hknown : ∀ past op answer, Known past → Q' op → Known (⟨op, answer⟩ :: past))
    {f : α → Proc Op Answer β} (hf : ∀ a past, Known past → (f a).AsksAfter Q past) :
    ∀ {p : Proc Op Answer α} {past}, p.Asks Q' → Known past → (p >>= f).AsksAfter Q past
  | .done a, past, _, hpast => hf a past hpast
  | .thrown _, _, _, _ => trivial
  | .call op _, past, hp, hpast =>
    ⟨hQ past op hpast hp.1, fun answer =>
      asksAfter_bind hQ hknown hf (hp.2 answer) (hknown past op answer hpast hp.1)⟩

/-- Whatever the answers are, what is returned is in `Q`. -/
def Returns (Q : α → Prop) : Proc Op Answer α → Prop
  | .done a => Q a
  | .thrown _ => True
  | .call _ next => ∀ answer, Returns Q (next answer)

theorem returns_bind {Q : β → Prop} {f : α → Proc Op Answer β} (hf : ∀ a, (f a).Returns Q) :
    ∀ p : Proc Op Answer α, (p >>= f).Returns Q
  | .done a => hf a
  | .thrown _ => trivial
  | .call _ next => fun answer => returns_bind hf (next answer)

/-- Whatever the answers are, what is returned is in `Q` of what has been asked for until then. -/
def ReturnsAfter (Q : History Op Answer → α → Prop) : History Op Answer → Proc Op Answer α → Prop
  | past, .done a => Q past a
  | _, .thrown _ => True
  | past, .call op next => ∀ answer, ReturnsAfter Q (⟨op, answer⟩ :: past) (next answer)

theorem Returns.after {Q : α → Prop} : ∀ {p : Proc Op Answer α}, p.Returns Q →
    ∀ past, p.ReturnsAfter (fun _ => Q) past
  | .done _, hp, _ => hp
  | .thrown _, _, _ => trivial
  | .call _ _, hp, _ => fun answer => (hp answer).after _

theorem ReturnsAfter.mono {Q Q' : History Op Answer → α → Prop}
    (h : ∀ past a, Q past a → Q' past a) :
    ∀ {p : Proc Op Answer α} {past}, p.ReturnsAfter Q past → p.ReturnsAfter Q' past
  | .done a, past, hp => h past a hp
  | .thrown _, _, _ => trivial
  | .call _ _, _, hp => fun answer => (hp answer).mono h

/-- A sequence returns after its second part does, wherever the first part has got. -/
theorem returnsAfter_bind {Q : History Op Answer → β → Prop} {f : α → Proc Op Answer β} :
    ∀ {p : Proc Op Answer α} {past}, p.ReturnsAfter (fun past a => (f a).ReturnsAfter Q past) past →
      (p >>= f).ReturnsAfter Q past
  | .done _, _, hp => hp
  | .thrown _, _, _ => trivial
  | .call _ _, _, hp => fun answer => returnsAfter_bind (hp answer)

/-- What is known of the past, and stays true of it, is true when a program returns. -/
theorem returnsAfter_known {Known : History Op Answer → Prop}
    (h : ∀ past asked, Known past → Known (asked :: past)) :
    ∀ {p : Proc Op Answer α} {past}, Known past → p.ReturnsAfter (fun past _ => Known past) past
  | .done _, _, hpast => hpast
  | .thrown _, _, _ => trivial
  | .call _ _, past, hpast => fun _ => returnsAfter_known h (h past _ hpast)

/-- The program run alone from a state: the state it leaves, and its result or exception. -/
def eval (exec : (op : Op) → σ → σ × Answer op) : Proc Op Answer α → σ → σ × Except String α
  | .done a, s => (s, .ok a)
  | .thrown message, s => (s, .error message)
  | .call op next, s => eval exec (next (exec op s).2) (exec op s).1

section Eval

variable {exec : (op : Op) → σ → σ × Answer op}

@[simp] theorem eval_done (a : α) (s : σ) :
    (Proc.done a : Proc Op Answer α).eval exec s = (s, .ok a) := rfl
@[simp] theorem eval_thrown (message : String) (s : σ) :
    (Proc.thrown message : Proc Op Answer α).eval exec s = (s, .error message) := rfl
@[simp] theorem eval_call (op : Op) (next : Answer op → Proc Op Answer α) (s : σ) :
    (Proc.call op next).eval exec s = (next (exec op s).2).eval exec (exec op s).1 := rfl

/-- A sequence runs its first part and, unless that throws, the second part from there. -/
theorem eval_bind (f : α → Proc Op Answer β) : ∀ (p : Proc Op Answer α) (s : σ),
    (p >>= f).eval exec s =
      match p.eval exec s with
      | (s', .ok a) => (f a).eval exec s'
      | (s', .error message) => (s', .error message)
  | .done _, _ => rfl
  | .thrown _, _ => rfl
  | .call op next, s => eval_bind f (next (exec op s).2) (exec op s).1

/-- What holds of the result and of the state that a program run alone ends with. -/
def Ends (exec : (op : Op) → σ → σ × Answer op) (Post : Except String α → σ → Prop)
    (p : Proc Op Answer α) (s : σ) : Prop :=
  Post (p.eval exec s).2 (p.eval exec s).1

theorem ends_call {Post : Except String α → σ → Prop} {op : Op}
    {next : Answer op → Proc Op Answer α} {s : σ} :
    Ends exec Post (.call op next) s ↔ Ends exec Post (next (exec op s).2) (exec op s).1 := Iff.rfl

/-- A sequence ends well when its first part ends where the second does, or throws well. -/
theorem ends_bind {Post : Except String β → σ → Prop} (f : α → Proc Op Answer β) :
    ∀ (p : Proc Op Answer α) (s : σ), Ends exec Post (p >>= f) s ↔
      Ends exec (fun
        | .ok a, s' => Ends exec Post (f a) s'
        | .error message, s' => Post (.error message) s') p s
  | .done _, _ => Iff.rfl
  | .thrown _, _ => Iff.rfl
  | .call op next, s => ends_bind f (next (exec op s).2) (exec op s).1

theorem Ends.mono {Post Post' : Except String α → σ → Prop} {p : Proc Op Answer α} {s : σ}
    (h : Ends exec Post p s) (hpost : ∀ result s', Post result s' → Post' result s') :
    Ends exec Post' p s :=
  hpost _ _ h

theorem ends_of_returns {Q : α → Prop} : ∀ {p : Proc Op Answer α} {s : σ}, p.Returns Q →
    Ends exec (fun result _ => ∀ a, result = .ok a → Q a) p s
  | .done _, _, hp => fun _ heq => Except.ok.inj heq ▸ hp
  | .thrown _, _, _ => nofun
  | .call op _, _, hp => ends_call.mpr (ends_of_returns (hp (exec op _).2))

/-- What each operation keeps, a program keeps. -/
theorem ends_of_asks {Q : Op → Prop} (Inv : σ → Prop)
    (h : ∀ op s, Q op → Inv s → Inv (exec op s).1) :
    ∀ {p : Proc Op Answer α} {s : σ}, p.Asks Q → Inv s → Ends exec (fun _ => Inv) p s
  | .done _, _, _, hs => hs
  | .thrown _, _, _, hs => hs
  | .call op next, s, hp, hs => by
    rw [ends_call]
    exact ends_of_asks Inv h (hp.2 _) (h op s hp.1 hs)

/-- A program over a wider interface does what it does over its own, on the part of the state that
    its operations see. -/
theorem ends_via {Op' σ' : Type} {Answer' : Op' → Type} {exec' : (op : Op') → σ' → σ' × Answer' op}
    {inject : Op → Op'} {answers : ∀ op, Answer' (inject op) → Answer op} {view : σ' → σ}
    (h : ∀ op s', view (exec' (inject op) s').1 = (exec op (view s')).1 ∧
      answers op (exec' (inject op) s').2 = (exec op (view s')).2)
    {Post : Except String α → σ → Prop} : ∀ {p : Proc Op Answer α} {s' : σ'},
      Ends exec Post p (view s') →
        Ends exec' (fun result s' => Post result (view s')) (p.via inject answers) s'
  | .done _, _, hp => hp
  | .thrown _, _, hp => hp
  | .call op next, s', hp => by
    obtain ⟨hstate, hanswer⟩ := h op s'
    show Ends exec' _ (.call (inject op) fun answer =>
      (next (answers op answer)).via inject answers) s'
    rw [ends_call]
    refine ends_via h ?_
    rw [hstate, hanswer]
    exact hp

end Eval

end Proc
