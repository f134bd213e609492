import Vertz.Lib.Program

/-!
# `Vertz.Lib.Contract`: what a program may rely on

A contract says of every call what the program has to see to before it,
and what it may rely on afterwards. Both are about a state, which may
hold more than the environment does. `wp` is the weakest precondition of
a program under a contract: every call is made as the contract asks, and
the result meets the postcondition, whatever replies the contract allows.

The theorems:

* `wp_bind`, `wpExcept_bind`, `wpExcept_tryCatch`: the rules of sequence.
* `wp_mono`: the rule of consequence.
* `wp_of_calls`: a program whose calls all get fixed replies.
* `run_of_wp`: an environment that keeps the contract.
-/

namespace Vertz.Lib

/-- What a call asks for, and what it gives. -/
structure Contract (σ : Signature) (S : Type) where
  pre : σ.Op → S → Prop
  post : (op : σ.Op) → S → σ.Reply op → S → Prop

variable {σ : Signature} {S ε α β : Type} {c : Contract σ S}

namespace Program

/-- The weakest precondition. -/
def wp (c : Contract σ S) : Program σ α → (α → S → Prop) → S → Prop
  | .done value, Q, s => Q value s
  | .call op next, Q, s => c.pre op s ∧ ∀ reply s', c.post op s reply s' → (next reply).wp c Q s'

theorem wp_bind (p : Program σ α) (f : α → Program σ β) (Q : β → S → Prop) (s : S) :
    (p >>= f).wp c Q s ↔ p.wp c (fun a s' => (f a).wp c Q s') s := by
  induction p generalizing s with
  | done value => exact Iff.rfl
  | call op next ih =>
    exact and_congr_right fun _ => forall_congr' fun reply => forall_congr' fun s' =>
      imp_congr_right fun _ => ih reply s'

theorem wp_mono {p : Program σ α} {Q R : α → S → Prop} {s : S} (h : p.wp c Q s)
    (hQR : ∀ a s', Q a s' → R a s') : p.wp c R s := by
  induction p generalizing s with
  | done value => exact hQR value s h
  | call op next ih => exact ⟨h.1, fun reply s' hpost => ih reply (h.2 reply s' hpost)⟩

/-- Calls that are always allowed, leave the state alone and get fixed
replies. -/
theorem wp_of_calls {reply : (op : σ.Op) → σ.Reply op} {p : Program σ α} {Q : α → S → Prop}
    {s : S} (hcalls : Calls (fun op => c.pre op s ∧ ∀ r s', c.post op s r s' → r = reply op ∧ s' = s) p)
    (hQ : Q (p.eval reply) s) : p.wp c Q s := by
  induction p with
  | done value => exact hQ
  | call op next ih =>
    refine ⟨hcalls.1.1, fun r s' hpost => ?_⟩
    have hreply := hcalls.1.2 r s' hpost
    rw [hreply.1, hreply.2]
    exact ih (reply op) (hcalls.2 (reply op)) hQ

/-- An environment that keeps the contract, as far as the state of the
contract is a view of its own. -/
theorem run_of_wp {T : Type} {handle : (op : σ.Op) → T → σ.Reply op × T} (view : T → S)
    (hkeeps : ∀ op t, c.pre op (view t) → c.post op (view t) (handle op t).1 (view (handle op t).2))
    {p : Program σ α} {Q : α → S → Prop} (t : T) (h : p.wp c Q (view t)) :
    Q (p.run handle t).1 (view (p.run handle t).2) := by
  induction p generalizing t with
  | done value => exact h
  | call op next ih => exact ih (handle op t).1 (handle op t).2 (h.2 _ _ (hkeeps op t h.1))

end Program

/-! ### Programs that can fail -/

/-- The weakest precondition of a program that can fail, for a
postcondition on either outcome. -/
def wpExcept (c : Contract σ S) (p : ExceptT ε (Program σ) α) (Q : Except ε α → S → Prop)
    (s : S) : Prop :=
  p.run.wp c Q s

theorem wpExcept_bind (p : ExceptT ε (Program σ) α) (f : α → ExceptT ε (Program σ) β)
    (Q : Except ε β → S → Prop) (s : S) :
    wpExcept c (p >>= f) Q s ↔ wpExcept c p (fun r s' => match r with
      | .ok a => wpExcept c (f a) Q s'
      | .error error => Q (.error error) s') s := by
  show (p.run >>= fun r => ExceptT.bindCont f r).wp c Q s ↔ _
  rw [Program.wp_bind]
  constructor
  · intro h
    refine Program.wp_mono h fun r s' hr => ?_
    cases r <;> exact hr
  · intro h
    refine Program.wp_mono h fun r s' hr => ?_
    cases r <;> exact hr

theorem wpExcept_tryCatch (p : ExceptT ε (Program σ) α) (f : ε → ExceptT ε (Program σ) α)
    (Q : Except ε α → S → Prop) (s : S) :
    wpExcept c (tryCatch p f) Q s ↔ wpExcept c p (fun r s' => match r with
      | .ok a => Q (.ok a) s'
      | .error error => wpExcept c (f error) Q s') s := by
  show (p.run >>= fun r => match r with
    | .ok value => pure (.ok value)
    | .error error => (f error).run).wp c Q s ↔ _
  rw [Program.wp_bind]
  constructor
  · intro h
    refine Program.wp_mono h fun r s' hr => ?_
    cases r <;> exact hr
  · intro h
    refine Program.wp_mono h fun r s' hr => ?_
    cases r <;> exact hr

theorem wpExcept_mono {p : ExceptT ε (Program σ) α} {Q R : Except ε α → S → Prop} {s : S}
    (h : wpExcept c p Q s) (hQR : ∀ r s', Q r s' → R r s') : wpExcept c p R s :=
  Program.wp_mono h hQR

theorem wpExcept_of_calls {reply : (op : σ.Op) → σ.Reply op} {p : ExceptT ε (Program σ) α}
    {Q : Except ε α → S → Prop} {s : S}
    (hcalls : CallsExcept
      (fun op => c.pre op s ∧ ∀ r s', c.post op s r s' → r = reply op ∧ s' = s) p)
    (hQ : Q (evalExcept reply p) s) : wpExcept c p Q s :=
  Program.wp_of_calls hcalls hQ

end Vertz.Lib
