import Vertz.Lib.Kleene

/-!
# `Vertz.Lib.Condition`: condition text and its reading

A condition is a list of tokens: atoms, `AND`, `OR`, `NOT` and
parentheses. `parse` reads it the way a database does (`NOT` binds
tighter than `AND`, `AND` tighter than `OR`) with a pushdown machine
that consumes one token at a time, so what a token list does to the
machine composes: `Reads ts e` says that from any point where an operand
is expected, `ts` is consumed and leaves the operand `e`; `Stuck ts`
says that from any such point the machine gives up inside `ts`.

The theorems:

* `reads_atom`, `reads_not`, `reads_group_and`, `reads_group_or`: the
  composition rules for conditions that are read.
* `stuck_group`: a parenthesised list of operands gets stuck as soon as
  one of them is missing or stuck itself.
* `parse_joinAnd` / `parse_joinAnd_stuck`: the same two outcomes for a
  whole condition.
* `parse_map`: renaming the atoms commutes with parsing.
* `eval_below`: evaluation is monotone in the information order, so a
  condition that holds with every atom unknown holds whatever the atoms
  are (`eval_yes_of_unknown`).
-/

namespace Vertz.Lib

open List Option

/-- A token of a condition. -/
inductive Tok (α : Type) where
  | atom (a : α)
  | and
  | or
  | not
  | lparen
  | rparen
  deriving DecidableEq, Repr

/-- A read condition. -/
inductive Cond (α : Type) where
  | atom (a : α)
  | neg (c : Cond α)
  | conj (cs : List (Cond α))
  | disj (cs : List (Cond α))

namespace Tok

variable {α β : Type}

def map (f : α → β) : Tok α → Tok β
  | .atom a => .atom (f a)
  | .and => .and
  | .or => .or
  | .not => .not
  | .lparen => .lparen
  | .rparen => .rparen

/-- The atom a token is, if it is one. -/
def atom? : Tok α → Option α
  | .atom a => some a
  | _ => none

/-- Token lists joined by a separator token. -/
def join (sep : Tok α) : List (List (Tok α)) → List (Tok α)
  | [] => []
  | [c] => c
  | c :: c' :: cs => c ++ sep :: join sep (c' :: cs)

@[simp] theorem join_nil (sep : Tok α) : join sep [] = [] := rfl

@[simp] theorem join_singleton (sep : Tok α) (c : List (Tok α)) : join sep [c] = c := rfl

theorem join_cons_cons (sep : Tok α) (c c' : List (Tok α)) (cs : List (List (Tok α))) :
    join sep (c :: c' :: cs) = c ++ sep :: join sep (c' :: cs) := rfl

/-- A joined list with an operand that has a token has one itself. -/
theorem join_ne_nil {sep : Tok α} {c : List (Tok α)} {cs : List (List (Tok α))} (hc : c ∈ cs)
    (hne : c ≠ []) : join sep cs ≠ [] := by
  cases cs with
  | nil => cases hc
  | cons d ds =>
    cases ds with
    | nil =>
      rw [mem_singleton] at hc
      subst hc
      exact hne
    | cons d' ds => simp [join_cons_cons]

end Tok

namespace Cond

variable {α β : Type}

mutual

/-- The value of a condition from the values of its atoms. -/
def eval (ρ : α → Tri) : Cond α → Tri
  | .atom a => ρ a
  | .neg c => Tri.neg (eval ρ c)
  | .conj cs => Tri.all (evals ρ cs)
  | .disj cs => Tri.any (evals ρ cs)

def evals (ρ : α → Tri) : List (Cond α) → List Tri
  | [] => []
  | c :: cs => eval ρ c :: evals ρ cs

end

theorem evals_eq_map (ρ : α → Tri) (cs : List (Cond α)) : evals ρ cs = cs.map (eval ρ) := by
  induction cs with
  | nil => rfl
  | cons c cs ih => rw [evals, ih, map_cons]

mutual

/-- The condition with its atoms renamed. -/
def map (f : α → β) : Cond α → Cond β
  | .atom a => .atom (f a)
  | .neg c => .neg (map f c)
  | .conj cs => .conj (maps f cs)
  | .disj cs => .disj (maps f cs)

def maps (f : α → β) : List (Cond α) → List (Cond β)
  | [] => []
  | c :: cs => map f c :: maps f cs

end

theorem maps_eq_map (f : α → β) (cs : List (Cond α)) : maps f cs = cs.map (map f) := by
  induction cs with
  | nil => rfl
  | cons c cs ih => rw [maps, ih, map_cons]

mutual

theorem eval_map (f : α → β) (ρ : β → Tri) : (c : Cond α) →
    eval ρ (map f c) = eval (fun a => ρ (f a)) c
  | .atom a => rfl
  | .neg c => by
      show Tri.neg (eval ρ (map f c)) = Tri.neg (eval (fun a => ρ (f a)) c)
      rw [eval_map f ρ c]
  | .conj cs => by
      show Tri.all (evals ρ (maps f cs)) = Tri.all (evals (fun a => ρ (f a)) cs)
      rw [evals_maps f ρ cs]
  | .disj cs => by
      show Tri.any (evals ρ (maps f cs)) = Tri.any (evals (fun a => ρ (f a)) cs)
      rw [evals_maps f ρ cs]

theorem evals_maps (f : α → β) (ρ : β → Tri) : (cs : List (Cond α)) →
    evals ρ (maps f cs) = evals (fun a => ρ (f a)) cs
  | [] => rfl
  | c :: cs => by
      rw [maps, evals, evals, eval_map f ρ c, evals_maps f ρ cs]

end

mutual

/-- Evaluation is monotone in the information order of its atoms. -/
theorem eval_below {ρ ρ' : α → Tri} (h : ∀ a, Tri.Below (ρ a) (ρ' a)) : (c : Cond α) →
    Tri.Below (eval ρ c) (eval ρ' c)
  | .atom a => h a
  | .neg c => Tri.neg_below (eval_below h c)
  | .conj cs => (evals_below h cs).1
  | .disj cs => (evals_below h cs).2

theorem evals_below {ρ ρ' : α → Tri} (h : ∀ a, Tri.Below (ρ a) (ρ' a)) : (cs : List (Cond α)) →
    Tri.Below (Tri.all (evals ρ cs)) (Tri.all (evals ρ' cs)) ∧
      Tri.Below (Tri.any (evals ρ cs)) (Tri.any (evals ρ' cs))
  | [] => ⟨Tri.Below.refl _, Tri.Below.refl _⟩
  | c :: cs =>
    ⟨Tri.and_below (eval_below h c) (evals_below h cs).1,
      Tri.or_below (eval_below h c) (evals_below h cs).2⟩

end

end Cond

/-! ### The reader -/

namespace Condition

variable {α β : Type}

/-- What has been read inside one pair of parentheses: the finished
disjuncts, the conjuncts of the disjunct being read, and the `NOT`s
waiting for their operand. -/
structure Frame (α : Type) where
  ors : List (Cond α)
  ands : List (Cond α)
  nots : Nat

/-- What the next token may be. -/
inductive Mode where
  | operand
  | operator

/-- A state of the reader: the open parentheses' frames below the
current one. -/
structure State (α : Type) where
  stack : List (Frame α)
  top : Frame α
  mode : Mode

def Frame.start : Frame α := ⟨[], [], 0⟩

/-- `n` negations around a condition. -/
def negs : Nat → Cond α → Cond α
  | 0, c => c
  | n + 1, c => negs n (.neg c)

/-- The frame with one more operand. -/
def Frame.push (f : Frame α) (c : Cond α) : Frame α :=
  { f with ands := f.ands ++ [negs f.nots c], nots := 0 }

/-- The condition a finished frame holds. -/
def Frame.close (f : Frame α) : Cond α := .disj (f.ors ++ [.conj f.ands])

/-- One token. -/
def step (s : State α) : Tok α → Option (State α)
  | .atom a =>
    match s.mode with
    | .operand => some { s with top := s.top.push (.atom a), mode := .operator }
    | .operator => none
  | .not =>
    match s.mode with
    | .operand => some { s with top := { s.top with nots := s.top.nots + 1 } }
    | .operator => none
  | .lparen =>
    match s.mode with
    | .operand => some { stack := s.top :: s.stack, top := .start, mode := .operand }
    | .operator => none
  | .and =>
    match s.mode with
    | .operator => some { s with mode := .operand }
    | .operand => none
  | .or =>
    match s.mode with
    | .operator =>
      some { s with top := ⟨s.top.ors ++ [.conj s.top.ands], [], 0⟩, mode := .operand }
    | .operand => none
  | .rparen =>
    match s.mode, s.stack with
    | .operator, f :: fs =>
      some { stack := fs, top := f.push s.top.close, mode := .operator }
    | _, _ => none

/-- The reader over a token list. -/
def run (s : State α) : List (Tok α) → Option (State α)
  | [] => some s
  | t :: ts => (step s t).bind fun s' => run s' ts

def State.start : State α := ⟨[], .start, .operand⟩

/-- The condition read by a finished run. -/
def finish (s : State α) : Option (Cond α) :=
  match s.mode, s.stack with
  | .operator, [] => some s.top.close
  | _, _ => none

/-- The condition a token list stands for, if it is well formed. -/
def parse (ts : List (Tok α)) : Option (Cond α) :=
  (run .start ts).bind finish

theorem run_append (s : State α) (ts us : List (Tok α)) :
    run s (ts ++ us) = (run s ts).bind fun s' => run s' us := by
  induction ts generalizing s with
  | nil => rfl
  | cons t ts ih =>
    rw [cons_append, run, run, bind_assoc]
    exact congrArg _ (funext fun s' => ih s')

/-- From any point where an operand is expected, `ts` is consumed and
leaves the operand `c`. -/
def Reads (ts : List (Tok α)) (c : Cond α) : Prop :=
  ∀ stack top, run ⟨stack, top, .operand⟩ ts = some ⟨stack, top.push c, .operator⟩

/-- From any point where an operand is expected, the reader gives up
inside `ts`. -/
def Stuck (ts : List (Tok α)) : Prop :=
  ∀ stack top, run ⟨stack, top, .operand⟩ ts = none

theorem reads_atom (a : α) : Reads [.atom a] (.atom a) := by
  intro stack top
  rfl

/-- A `NOT` in front of an operand negates it. -/
theorem reads_not {ts : List (Tok α)} {c : Cond α} (h : Reads ts c) :
    Reads (.not :: ts) (.neg c) := by
  intro stack top
  have hstep : run ⟨stack, top, .operand⟩ (.not :: ts)
      = run ⟨stack, { top with nots := top.nots + 1 }, .operand⟩ ts := rfl
  rw [hstep, h]
  rfl

theorem stuck_not {ts : List (Tok α)} (h : Stuck ts) : Stuck (.not :: ts) := by
  intro stack top
  exact h stack { top with nots := top.nots + 1 }

variable {ts : List (List (Tok α))} {cs : List (Cond α)}

/-- Operands joined by `AND` extend the conjuncts being read. -/
theorem run_joinAnd (h : List.Forall₂ Reads ts cs) (hne : ts ≠ []) (stack : List (Frame α))
    (top : Frame α) (hn : top.nots = 0) :
    run ⟨stack, top, .operand⟩ (Tok.join .and ts)
      = some ⟨stack, { top with ands := top.ands ++ cs }, .operator⟩ := by
  induction h generalizing top with
  | nil => exact absurd rfl hne
  | @cons t c ts cs ht hts ih =>
    have hpush : top.push c = { top with ands := top.ands ++ [c] } := by
      unfold Frame.push
      rw [hn]
      rfl
    cases hts with
    | nil =>
      rw [Tok.join_singleton, ht, hpush]
    | @cons t' c' ts cs ht' hts =>
      rw [Tok.join_cons_cons, run_append, ht, hpush, bind_some]
      have hrest := ih (cons_ne_nil _ _) { top with ands := top.ands ++ [c] } hn
      rw [append_assoc, singleton_append] at hrest
      exact hrest

/-- Operands joined by `OR`: each closes the disjunct before it. -/
theorem run_joinOr (h : List.Forall₂ Reads ts cs) (stack : List (Frame α)) (ors : List (Cond α)) :
    ∀ t c, Reads t c → ∃ ds d, run ⟨stack, ⟨ors, [], 0⟩, .operand⟩ (Tok.join .or (t :: ts))
          = some ⟨stack, ⟨ors ++ ds, [d], 0⟩, .operator⟩ ∧
        ds ++ [.conj [d]] = (c :: cs).map fun c => .conj [c] := by
  induction h generalizing ors with
  | nil =>
    intro t c ht
    refine ⟨[], c, ?_, rfl⟩
    rw [Tok.join_singleton, ht, append_nil]
    rfl
  | @cons t' c' ts cs ht' hts ih =>
    intro t c ht
    obtain ⟨ds, d, hrun, heq⟩ := ih (ors ++ [.conj [c]]) t' c' ht'
    refine ⟨.conj [c] :: ds, d, ?_, ?_⟩
    · rw [Tok.join_cons_cons, run_append, ht, bind_some]
      rw [append_assoc, singleton_append] at hrun
      exact hrun
    · rw [cons_append, heq]
      rfl

/-- A parenthesised conjunction of operands is an operand. -/
theorem reads_group_and (h : List.Forall₂ Reads ts cs) (hne : ts ≠ []) :
    Reads (.lparen :: Tok.join .and ts ++ [.rparen]) (.disj [.conj cs]) := by
  intro stack top
  have hopen : run ⟨stack, top, .operand⟩ (.lparen :: Tok.join .and ts ++ [.rparen])
      = run ⟨top :: stack, .start, .operand⟩ (Tok.join .and ts ++ [.rparen]) := rfl
  rw [hopen, run_append, run_joinAnd h hne _ _ rfl]
  rfl

/-- A parenthesised disjunction of operands is an operand. -/
theorem reads_group_or {t : List (Tok α)} {c : Cond α} (ht : Reads t c)
    (h : List.Forall₂ Reads ts cs) :
    Reads (.lparen :: Tok.join .or (t :: ts) ++ [.rparen])
      (.disj ((c :: cs).map fun c => .conj [c])) := by
  intro stack top
  have hopen : run ⟨stack, top, .operand⟩ (.lparen :: Tok.join .or (t :: ts) ++ [.rparen])
      = run ⟨top :: stack, ⟨[], [], 0⟩, .operand⟩ (Tok.join .or (t :: ts) ++ [.rparen]) := rfl
  obtain ⟨ds, d, hrun, heq⟩ := run_joinOr h (top :: stack) [] t c ht
  rw [hopen, run_append, hrun, ← heq]
  rfl

/-- An operand is missing, stuck, or read. -/
def Settled (ts : List (Tok α)) : Prop :=
  ts = [] ∨ Stuck ts ∨ ∃ c, Reads ts c

theorem Reads.not_missing_or_stuck {ts : List (Tok α)} {c : Cond α} (h : Reads ts c) :
    ¬ (ts = [] ∨ Stuck ts) := by
  have hrun := h [] .start
  rintro (rfl | hst)
  · cases hrun
  · rw [hst] at hrun
    cases hrun

/-- A joined list with a missing or stuck operand gets stuck, whatever
separator or closing parenthesis follows. -/
theorem run_join_stuck {sep : Tok α} (hsep : sep = .and ∨ sep = .or) (hall : ∀ t ∈ ts, Settled t)
    (hbad : ∃ t ∈ ts, t = [] ∨ Stuck t) (stack : List (Frame α)) (top : Frame α) :
    run ⟨stack, top, .operand⟩ (Tok.join sep ts ++ [.rparen]) = none := by
  have hsepStuck : ∀ us : List (Tok α), ∀ st tp,
      run ⟨st, tp, .operand⟩ (sep :: us) = none := by
    intro us st tp
    rcases hsep with rfl | rfl <;> rfl
  have hsepOperand : ∀ st tp, ∃ tp', step ⟨st, tp, .operator⟩ sep = some ⟨st, tp', .operand⟩ := by
    intro st tp
    rcases hsep with rfl | rfl <;> exact ⟨_, rfl⟩
  induction ts generalizing top with
  | nil =>
    obtain ⟨t, hmem, -⟩ := hbad
    cases hmem
  | cons t ts ih =>
    have hrest : ∀ us : List (Tok α), Stuck t → run ⟨stack, top, .operand⟩ (t ++ us) = none := by
      intro us hst
      rw [run_append, hst]
      rfl
    cases ts with
    | nil =>
      obtain ⟨u, hmem, hu⟩ := hbad
      rw [mem_singleton] at hmem
      subst hmem
      rcases hu with rfl | hu
      · rfl
      · exact hrest _ hu
    | cons t' ts =>
      rw [Tok.join_cons_cons, append_assoc, cons_append]
      rcases hall t mem_cons_self with rfl | hst | ⟨c, hc⟩
      · exact hsepStuck _ _ _
      · exact hrest _ hst
      · -- the head is read, so the missing or stuck operand is further on
        rw [run_append, hc, bind_some, run]
        obtain ⟨top', hop⟩ := hsepOperand stack (top.push c)
        rw [hop, bind_some]
        refine ih (fun u hu => hall u (mem_cons_of_mem _ hu)) ?_ top'
        obtain ⟨u, hmem, hu⟩ := hbad
        rcases mem_cons.mp hmem with rfl | hmem
        · exact absurd hu hc.not_missing_or_stuck
        · exact ⟨u, hmem, hu⟩

theorem stuck_group {sep : Tok α} (hsep : sep = .and ∨ sep = .or) (hall : ∀ t ∈ ts, Settled t)
    (hbad : ∃ t ∈ ts, t = [] ∨ Stuck t) : Stuck (.lparen :: Tok.join sep ts ++ [.rparen]) := by
  intro stack top
  exact run_join_stuck hsep hall hbad (top :: stack) .start

theorem stuck_empty_group : Stuck ([.lparen, .rparen] : List (Tok α)) := by
  intro stack top
  rfl

/-- A whole condition of read operands joined by `AND`. -/
theorem parse_joinAnd (h : List.Forall₂ Reads ts cs) (hne : ts ≠ []) :
    parse (Tok.join .and ts) = some (.disj [.conj cs]) := by
  have hrun := run_joinAnd h hne [] .start rfl
  show (run ⟨[], .start, .operand⟩ (Tok.join .and ts)).bind finish = _
  rw [hrun]
  rfl

theorem stuck_joinAnd (hall : ∀ t ∈ ts, Settled t) (hbad : ∃ t ∈ ts, Stuck t)
    : Stuck (Tok.join .and ts) := by
  intro stack top
  induction ts generalizing top with
  | nil =>
    obtain ⟨t, hmem, -⟩ := hbad
    cases hmem
  | cons t ts ih =>
    cases ts with
    | nil =>
      obtain ⟨u, hmem, hu⟩ := hbad
      rw [mem_singleton] at hmem
      subst hmem
      exact hu _ _
    | cons t' ts =>
      rw [Tok.join_cons_cons, run_append]
      rcases hall t mem_cons_self with rfl | hst | ⟨c, hc⟩
      · rfl
      · rw [hst]
        rfl
      · rw [hc, bind_some]
        refine ih (fun u hu => hall u (mem_cons_of_mem _ hu)) ?_ (top.push c)
        obtain ⟨u, hmem, hu⟩ := hbad
        rcases mem_cons.mp hmem with rfl | hmem
        · exact absurd (.inr hu) hc.not_missing_or_stuck
        · exact ⟨u, hmem, hu⟩

/-- A whole condition that gets stuck is malformed. -/
theorem Stuck.parse_append {ts : List (Tok α)} (h : Stuck ts) (us : List (Tok α)) :
    parse (ts ++ us) = none := by
  have hrun : run .start ts = none := h [] .start
  unfold parse
  rw [run_append, hrun]
  rfl

/-- A whole condition with a stuck operand is malformed. -/
theorem parse_joinAnd_stuck (hall : ∀ t ∈ ts, Settled t) (hbad : ∃ t ∈ ts, Stuck t)
    : parse (Tok.join .and ts) = none := by
  have hstuck := (stuck_joinAnd hall hbad).parse_append []
  rwa [append_nil] at hstuck

/-! ### Renaming atoms -/

def Frame.map (f : α → β) (fr : Frame α) : Frame β :=
  ⟨fr.ors.map (Cond.map f), fr.ands.map (Cond.map f), fr.nots⟩

def State.map (f : α → β) (s : State α) : State β :=
  ⟨s.stack.map (Frame.map f), s.top.map f, s.mode⟩

theorem map_negs (f : α → β) (n : Nat) (c : Cond α) :
    Cond.map f (negs n c) = negs n (Cond.map f c) := by
  induction n generalizing c with
  | zero => rfl
  | succ n ih =>
    rw [negs, ih]
    rfl

theorem map_push (f : α → β) (fr : Frame α) (c : Cond α) :
    (fr.push c).map f = (fr.map f).push (Cond.map f c) := by
  simp only [Frame.push, Frame.map, map_append, map_cons, map_nil, map_negs]

theorem map_close (f : α → β) (fr : Frame α) :
    Cond.map f fr.close = (fr.map f).close := by
  simp only [Frame.close, Frame.map, Cond.map, Cond.maps_eq_map, map_append, map_cons,
    map_nil]

theorem step_map (f : α → β) (s : State α) (t : Tok α) :
    step (s.map f) (t.map f) = (step s t).map (State.map f) := by
  obtain ⟨stack, top, mode⟩ := s
  cases t <;> cases mode <;> try rfl
  case atom.operand a =>
    simp only [step, State.map, Tok.map, map_some, map_push, Cond.map]
  case or.operator =>
    simp only [step, State.map, Tok.map, map_some, Frame.map, map_append,
      map_cons, map_nil, Cond.map, Cond.maps_eq_map]
  case rparen.operator =>
    cases stack with
    | nil => rfl
    | cons fr frs =>
      simp only [step, State.map, Tok.map, map_some, map_cons, map_push, map_close]

theorem run_map (f : α → β) (s : State α) (ts : List (Tok α)) :
    run (s.map f) (ts.map (Tok.map f)) = (run s ts).map (State.map f) := by
  induction ts generalizing s with
  | nil => rfl
  | cons t ts ih =>
    rw [map_cons, run, run, step_map]
    cases step s t with
    | none => rfl
    | some s' => exact ih s'

/-- A condition that gets stuck does so under any renaming. -/
theorem Stuck.parse_map_append {ts : List (Tok α)} (h : Stuck ts) (f : α → β)
    (us : List (Tok β)) : parse (ts.map (Tok.map f) ++ us) = none := by
  have hrun : run (.start : State β) (ts.map (Tok.map f)) = (run .start ts).map (State.map f) :=
    run_map f .start ts
  have hstart : run .start ts = none := h [] .start
  unfold parse
  rw [run_append, hrun, hstart]
  rfl

/-- Renaming the atoms commutes with reading the condition. -/
theorem parse_map (f : α → β) (ts : List (Tok α)) :
    parse (ts.map (Tok.map f)) = (parse ts).map (Cond.map f) := by
  have hrun : run (.start : State β) (ts.map (Tok.map f)) = (run .start ts).map (State.map f) :=
    run_map f .start ts
  unfold parse
  rw [hrun]
  cases run State.start ts with
  | none => rfl
  | some s =>
    obtain ⟨stack, top, mode⟩ := s
    cases mode with
    | operand => rfl
    | operator =>
      cases stack with
      | nil => simp only [map_some, bind_some, finish, State.map, map_nil,
          map_close]
      | cons fr frs => rfl

/-- Further text behind an `AND`: one more operand of the conjunction. -/
theorem parse_joinAnd_atom (h : List.Forall₂ Reads ts cs) (hne : ts ≠ []) (f : α → β) (b : β) :
    parse ((Tok.join .and ts).map (Tok.map f) ++ [.and, .atom b])
      = some (.disj [.conj (cs.map (Cond.map f) ++ [.atom b])]) := by
  have hrun : run (.start : State β) ((Tok.join .and ts).map (Tok.map f))
      = (run .start (Tok.join .and ts)).map (State.map f) := run_map f .start _
  have hfirst : run State.start (Tok.join .and ts) = some ⟨[], ⟨[], [] ++ cs, 0⟩, .operator⟩ :=
    run_joinAnd h hne [] .start rfl
  unfold parse
  rw [run_append, hrun, hfirst]
  rfl

end Condition

end Vertz.Lib
