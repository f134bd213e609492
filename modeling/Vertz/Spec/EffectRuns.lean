import Vertz.Ui.Runtime.Machine
import Vertz.Lib.Reactive

/-!
# `Vertz.Spec.EffectRuns`: what effects and computeds owe each other

## Effects after their disposal

`DisposedUnsubscribed` is what is asked of a program: once no run of a
disposed effect is on the stack, no signal and no computed has it as a
subscriber, and it does not run again.

A run of an effect that is disposed meanwhile goes on, and a value it
reads then subscribes it again. `LateReadsCleared` says that after every
such read, and before the run is over, the effect is disposed once more.
-/

namespace Vertz.Spec

open Vertz.Ui.Runtime

variable {V E W : Type}

/-- A run of the effect is on the stack. -/
def EffectRunning (m : Machine V E W) (id : ℕ) : Prop := ∃ prev, Frame.run id prev ∈ m.stack

def EffectDisposed (m : Machine V E W) (id : ℕ) : Prop :=
  ∃ fn, m.graph.bodyAt id = some (.effect fn true)

/-- The effect is in a subscriber set. -/
def Subscribed (m : Machine V E W) (id : ℕ) : Prop := ∃ source, id ∈ m.graph.subscribersOf source

/-- The step disposes the effect. -/
def DisposesEffect (m : Machine V E W) (id : ℕ) : Prop := ∃ next, m.control = .run (.dispose id next)

/-- The step reads the value of a signal or a computed for the effect. -/
def ReadsFor (m : Machine V E W) (id : ℕ) : Prop :=
  ∃ source next, m.control = .run (.read source next) ∧ m.graph.currentSubscriber = some id ∧
    ((∃ value, m.graph.bodyAt source = some (.signal value)) ∨
      ∃ fn cached state, m.graph.bodyAt source = some (.computed fn cached state))

variable [Inhabited V] [DecidableEq V]

/-- The machine of a program after a number of steps. -/
def runOf (main : Code V E W) (host : W) (n : ℕ) : Machine V E W := (Machine.start main host).steps n

def DisposedUnsubscribed (main : Code V E W) (host : W) : Prop :=
  ∀ n id, EffectDisposed (runOf main host n) id → ¬ EffectRunning (runOf main host n) id →
    ¬ Subscribed (runOf main host n) id ∧ ∀ n' ≥ n, ¬ EffectRunning (runOf main host n') id

/-- A value that a disposed effect reads is followed by another disposal
before its run is over. -/
def LateReadsCleared (main : Code V E W) (host : W) : Prop :=
  ∀ k id, EffectDisposed (runOf main host k) id → ReadsFor (runOf main host k) id →
    ∀ n > k, ¬ EffectRunning (runOf main host n) id →
      ∃ j, k < j ∧ j < n ∧ DisposesEffect (runOf main host j) id

end Vertz.Spec

/-!
## Effects that throw in a flush

An effect that was notified is queued: it is pending, or a flush on the
stack still has it in its queue. `Delivered` is what is asked of a
program: a queued effect stays queued until it runs or is disposed, what
it read in its last run is what is there now unless it is queued again,
and the batch depth is what the batches on the stack make it, so that a
later write queues and flushes as ever.

An error that reaches a flush ends it, with the rest of its queue.
`LosesNone` says that every effect left there is queued elsewhere too.
-/

namespace Vertz.Spec

open Vertz.Ui.Runtime

variable {V E W : Type}

/-- The effect waits in the queue of a flush. -/
def InFlush (stack : List (Frame V E W)) (id : ℕ) : Prop :=
  ∃ queue saved, Frame.flush queue saved ∈ stack ∧ id ∈ queue

def EffectQueued (m : Machine V E W) (id : ℕ) : Prop :=
  id ∈ m.graph.pendingEffects ∨ InFlush m.stack id

def EffectLive (m : Machine V E W) (id : ℕ) : Prop :=
  ∃ fn, m.graph.bodyAt id = some (.effect fn false)

/-- The step reads the signal for the effect. -/
def ReadsSignal (m : Machine V E W) (id source : ℕ) (value : V) : Prop :=
  (∃ next, m.control = .run (.read source next)) ∧ m.graph.currentSubscriber = some id ∧
    m.graph.bodyAt source = some (.signal value)

/-- The step gives a signal a new value. -/
def Assigns (m : Machine V E W) (source : ℕ) : Prop :=
  ∃ old new next, m.control = .run (.write source new next) ∧
    m.graph.bodyAt source = some (.signal old) ∧ old ≠ new

def isBatch : Frame V E W → Bool
  | .batch => true
  | _ => false

/-- An error that reaches a flush loses no effect. -/
def LosesNone (m : Machine V E W) : Prop :=
  ∀ e queue saved stack, m.control = .unwind (.error e) → m.stack = .flush queue saved :: stack →
    ∀ id ∈ queue, EffectLive m id → id ∈ m.graph.pendingEffects ∨ InFlush stack id

variable [Inhabited V] [DecidableEq V]

/-- The step starts a run of the effect. -/
def StartsRun (m : Machine V E W) (id : ℕ) : Prop :=
  ∃ prev stack, m.step.stack = .run id prev :: stack ∧ m.stack.length < m.step.stack.length

structure Delivered (main : Code V E W) (host : W) : Prop where
  /-- A live effect that is queued runs, or is disposed, or is queued still. -/
  served : ∀ n n' id, n ≤ n' → EffectLive (runOf main host n) id →
    EffectQueued (runOf main host n) id → EffectQueued (runOf main host n') id ∨
      EffectDisposed (runOf main host n') id ∨ ∃ j, n ≤ j ∧ j < n' ∧ StartsRun (runOf main host j) id
  /-- What an effect read since its last run started is what is there
  now, unless it is queued. -/
  final : ∀ k j n id source value, k < j → j < n → StartsRun (runOf main host k) id →
    (∀ i, k < i → i < n → ¬ StartsRun (runOf main host i) id) →
    ReadsSignal (runOf main host j) id source value →
    EffectQueued (runOf main host n) id ∨ EffectDisposed (runOf main host n) id ∨
      (runOf main host n).graph.bodyAt source = some (.signal value)
  depth : ∀ n, (runOf main host n).graph.batchDepth = (runOf main host n).stack.countP isBatch
  /-- A write queues the effects that read the signal, and flushes outside
  of batches. -/
  written : ∀ n source, Assigns (runOf main host n) source →
    (∀ id ∈ (runOf main host n).graph.subscribersOf source, EffectLive (runOf main host n) id →
      EffectQueued (runOf main host (n + 1)) id) ∧
    ((runOf main host n).stack.countP isBatch = 0 →
      ∃ saved stack, (runOf main host (n + 1)).stack = .flush [] saved :: stack)

end Vertz.Spec

/-!
## What a read of a computed answers

The function of a computed reads signals and other computeds, catches
what they throw or not, and returns or throws (`ReadsOnly`). What it does
on the current values of the signals is `CurrentOutcome`, through
`Lib.Yields`: an outcome is a returned value or an error, and a computed
that is read has the outcome of its own function.

`AnswersCurrent` is what is asked of a program: every read of a computed
returns or throws what the function does on the current values.
`FindsNoThrow` is the condition on a step, in the state before it: it
does not read a computed that is `Clean` and throws on these values.
-/

namespace Vertz.Spec

open Vertz.Lib Vertz.Ui.Runtime

variable {V E W : Type}

/-- Code that reads, returns and throws. -/
def ReadsOnly : Code V E W → Prop
  | .done _ => True
  | .throw _ => True
  | .read _ next => ∀ outcome, ReadsOnly (next outcome)
  | _ => False

/-- Code that creates computeds only of functions that read. -/
def PureComputeds : Code V E W → Prop
  | .done _ => True
  | .throw _ => True
  | .read _ next => ∀ outcome, PureComputeds (next outcome)
  | .peek _ next => ∀ outcome, PureComputeds (next outcome)
  | .write _ _ next => ∀ outcome, PureComputeds (next outcome)
  | .notify _ next => ∀ outcome, PureComputeds (next outcome)
  | .untrack fn next => PureComputeds fn ∧ ∀ outcome, PureComputeds (next outcome)
  | .batch fn next => PureComputeds fn ∧ ∀ outcome, PureComputeds (next outcome)
  | .signal _ next => ∀ id, PureComputeds (next id)
  | .computed fn next => ReadsOnly fn ∧ ∀ id, PureComputeds (next id)
  | .domEffect fn next => PureComputeds fn ∧ ∀ outcome, PureComputeds (next outcome)
  | .deferredDomEffect fn next => PureComputeds fn ∧ ∀ outcome, PureComputeds (next outcome)
  | .dispose _ next => PureComputeds next
  | .startHydration next => ∀ outcome, PureComputeds (next outcome)
  | .endHydration next => PureComputeds next
  | .pauseHydration next => PureComputeds next
  | .resumeHydration next => PureComputeds next
  | .discardDeferredEffects next => PureComputeds next
  | .host _ next => ∀ host, PureComputeds (next host)

/-- Reading code asks for the outcome of reads, and has an outcome. -/
def outcomeReader : Reader ℕ (Except E V) (Code V E W) where
  returns
    | .done value => some (.ok value)
    | .throw error => some (.error error)
    | _ => none
  asks
    | .read id next => some (id, next)
    | _ => none
  silent _ _ := False

/-- The signals are the inputs, the computeds the derived nodes. What a
clean computed has cached is its outcome, unless that was an error. -/
def outcomeGraph (g : NodeGraph V (Code V E W)) : DepGraph ℕ (Except E V) (Code V E W) where
  input id outcome := ∃ value, g.bodyAt id = some (.signal value) ∧ outcome = .ok value
  code id fn := ∃ cached state, g.bodyAt id = some (.computed fn cached state)
  fresh id outcome := ∃ fn cached, g.bodyAt id = some (.computed fn cached .clean) ∧
    ∀ value, outcome = .ok value → cached = value
  subscribed source id := id ∈ g.subscribersOf source

/-- What the function does on the current values of the signals. -/
def OutcomeOf (g : NodeGraph V (Code V E W)) (fn : Code V E W) (outcome : Except E V) : Prop :=
  Yields outcomeReader (outcomeGraph g) fn outcome

/-- The computed's function has the outcome now. -/
def CurrentOutcome (g : NodeGraph V (Code V E W)) (id : ℕ) (outcome : Except E V) : Prop :=
  ∃ fn cached state, g.bodyAt id = some (.computed fn cached state) ∧ OutcomeOf g fn outcome

/-- The read of a computed that the step answers, and its answer: what is
cached, or what the function returned or threw. -/
def readAnswer (m : Machine V E W) : Option (ℕ × Except E V) :=
  match m.control, m.stack with
  | .run (.peek id _), _ =>
    match m.graph.bodyAt id with
    | some (.computed _ cached .clean) => some (id, .ok cached)
    | _ => none
  | .unwind outcome, .compute id _ _ :: _ => some (id, outcome)
  | _, _ => none

/-- The step does not read a clean computed whose function throws now. -/
def FindsNoThrow (m : Machine V E W) : Prop :=
  ∀ id next fn cached error, m.control = .run (.peek id next) →
    m.graph.bodyAt id = some (.computed fn cached .clean) → ¬ OutcomeOf m.graph fn (.error error)

variable [Inhabited V] [DecidableEq V]

def AnswersCurrent (main : Code V E W) (host : W) : Prop :=
  ∀ n id outcome, readAnswer (runOf main host n) = some (id, outcome) →
    CurrentOutcome (runOf main host n).graph id outcome

end Vertz.Spec
