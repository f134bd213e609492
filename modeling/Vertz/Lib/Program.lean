import Mathlib.Control.Basic

/-!
# `Vertz.Lib.Program`: programs that call an environment

A program either is done or calls an operation of its environment and
goes on with the reply. What a call does is left to whoever runs the
program: `eval` answers every call by a fixed reply, `run` threads a
state through the calls, and a scheduler can take one call at a time.

The theorems:

* `eval_bind`, `run_bind`: both run a sequence of programs in sequence.
* `run_of_calls`: a program whose calls all leave the state alone and get
  fixed replies runs as it evaluates.
* `Calls.bind`: what holds of every call of two programs holds of every
  call of their sequence.
* `evalExcept_bind`, `CallsExcept.bind` and their kind: the same for
  programs that can fail.
-/

namespace Vertz.Lib

/-- The operations of an environment, and what each replies with. -/
structure Signature where
  Op : Type
  Reply : Op → Type

inductive Program (σ : Signature) (α : Type) : Type where
  | done (value : α)
  | call (op : σ.Op) (next : σ.Reply op → Program σ α)

namespace Program

variable {σ : Signature} {α β S : Type}

def bind : Program σ α → (α → Program σ β) → Program σ β
  | .done value, f => f value
  | .call op next, f => .call op fun reply => (next reply).bind f

instance : Monad (Program σ) where
  pure := .done
  bind := bind

/-- One call. -/
def perform (op : σ.Op) : Program σ (σ.Reply op) := .call op .done

/-! ### Fixed replies -/

def eval (reply : (op : σ.Op) → σ.Reply op) : Program σ α → α
  | .done value => value
  | .call op next => (next (reply op)).eval reply

theorem eval_bind (reply : (op : σ.Op) → σ.Reply op) (p : Program σ α) (f : α → Program σ β) :
    (p >>= f).eval reply = (f (p.eval reply)).eval reply := by
  induction p with
  | done value => rfl
  | call op next ih => exact ih (reply op)

/-! ### A state behind the calls -/

def run (handle : (op : σ.Op) → S → σ.Reply op × S) : Program σ α → S → α × S
  | .done value, s => (value, s)
  | .call op next, s => (next (handle op s).1).run handle (handle op s).2

/-- A state seen through a view of another one that is handled alike. -/
theorem run_view {T : Type} {handle : (op : σ.Op) → S → σ.Reply op × S}
    {handle' : (op : σ.Op) → T → σ.Reply op × T} (view : T → S)
    (h : ∀ op t, handle op (view t) = ((handle' op t).1, view (handle' op t).2))
    (p : Program σ α) (t : T) :
    p.run handle (view t) = ((p.run handle' t).1, view (p.run handle' t).2) := by
  induction p generalizing t with
  | done value => rfl
  | call op next ih =>
    show (next (handle op (view t)).1).run handle (handle op (view t)).2 = _
    rw [h op t]
    exact ih (handle' op t).1 (handle' op t).2

/-! ### What a program calls -/

/-- Every call the program can make, whatever the replies, has the
property. -/
def Calls (P : σ.Op → Prop) : Program σ α → Prop
  | .done _ => True
  | .call op next => P op ∧ ∀ reply, (next reply).Calls P

theorem Calls.bind {P : σ.Op → Prop} {p : Program σ α} {f : α → Program σ β} (hp : Calls P p)
    (hf : ∀ a, Calls P (f a)) : Calls P (p >>= f) := by
  induction p with
  | done value => exact hf value
  | call op next ih => exact ⟨hp.1, fun reply => ih reply (hp.2 reply)⟩

theorem Calls.mono {P Q : σ.Op → Prop} (hPQ : ∀ op, P op → Q op) {p : Program σ α}
    (h : Calls P p) : Calls Q p := by
  induction p with
  | done value => trivial
  | call op next ih => exact ⟨hPQ op h.1, fun reply => ih reply (h.2 reply)⟩

/-- Calls that leave the state alone and get fixed replies. -/
theorem run_of_calls {handle : (op : σ.Op) → S → σ.Reply op × S}
    {reply : (op : σ.Op) → σ.Reply op} {s : S} {p : Program σ α}
    (h : Calls (fun op => handle op s = (reply op, s)) p) :
    p.run handle s = (p.eval reply, s) := by
  induction p with
  | done value => rfl
  | call op next ih =>
    show (next (handle op s).1).run handle (handle op s).2 = _
    rw [h.1]
    exact ih (reply op) (h.2 (reply op))

end Program

/-! ### Programs that can fail -/

section Failing

variable {σ : Signature} {ε α β : Type}

/-- The result of a program that can fail, under fixed replies. -/
def evalExcept (reply : (op : σ.Op) → σ.Reply op) (p : ExceptT ε (Program σ) α) : Except ε α :=
  p.run.eval reply

variable (reply : (op : σ.Op) → σ.Reply op)

@[simp] theorem evalExcept_pure (value : α) :
    evalExcept reply (pure value : ExceptT ε (Program σ) α) = .ok value := rfl

@[simp] theorem evalExcept_throw (error : ε) :
    evalExcept reply (throw error : ExceptT ε (Program σ) α) = .error error := rfl

@[simp] theorem evalExcept_bind (p : ExceptT ε (Program σ) α) (f : α → ExceptT ε (Program σ) β) :
    evalExcept reply (p >>= f) = (evalExcept reply p >>= fun a => evalExcept reply (f a)) := by
  show Program.eval reply (p.run >>= fun r => ExceptT.bindCont f r) = _
  rw [Program.eval_bind]
  show Program.eval reply (ExceptT.bindCont f (evalExcept reply p)) = _
  cases evalExcept reply p <;> rfl

@[simp] theorem evalExcept_tryCatch (p : ExceptT ε (Program σ) α)
    (f : ε → ExceptT ε (Program σ) α) :
    evalExcept reply (tryCatch p f)
      = match evalExcept reply p with
        | .ok value => .ok value
        | .error error => evalExcept reply (f error) := by
  show Program.eval reply (p.run >>= fun r => match r with
    | .ok value => pure (.ok value)
    | .error error => (f error).run) = _
  rw [Program.eval_bind]
  show Program.eval reply (match evalExcept reply p with
    | .ok value => pure (.ok value)
    | .error error => (f error).run) = _
  cases evalExcept reply p <;> rfl

@[simp] theorem evalExcept_lift (p : Program σ α) :
    evalExcept reply (ExceptT.lift p : ExceptT ε (Program σ) α) = .ok (p.eval reply) :=
  Program.eval_bind reply p _

/-- Every call of a program that can fail has the property. -/
def CallsExcept (P : σ.Op → Prop) (p : ExceptT ε (Program σ) α) : Prop := p.run.Calls P

variable {P : σ.Op → Prop}

theorem CallsExcept.bind {p : ExceptT ε (Program σ) α} {f : α → ExceptT ε (Program σ) β}
    (hp : CallsExcept P p) (hf : ∀ a, CallsExcept P (f a)) : CallsExcept P (p >>= f) := by
  refine Program.Calls.bind hp fun r => ?_
  cases r with
  | error error => trivial
  | ok a => exact hf a

theorem CallsExcept.tryCatch {p : ExceptT ε (Program σ) α} {f : ε → ExceptT ε (Program σ) α}
    (hp : CallsExcept P p) (hf : ∀ error, CallsExcept P (f error)) :
    CallsExcept P (tryCatch p f) := by
  refine Program.Calls.bind hp fun r => ?_
  cases r with
  | error error => exact hf error
  | ok a => trivial

end Failing

end Vertz.Lib
