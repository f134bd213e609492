import Vertz.Ui.Runtime.Signal

/-!
# `Vertz.Ui.Runtime.Machine`: user code on the reactive graph

`packages/ui/src/runtime/signal.ts`, `scheduler.ts` and the deferred
effects of `hydrate/hydration-context.ts`. User code calls the runtime,
the runtime calls user functions, and each of them can throw: a call that
still has something to do when a function returns or throws leaves a
frame on the stack, its `finally` block or the rest of its loop.

`Code` is user code: the calls it makes, one after another, each going on
from what the call returned or threw. Code that does not catch goes on
with `throw` after a call that threw. What else a program keeps is its
`host` state, which code can look at and change.
-/

namespace Vertz.Ui.Runtime

/-- User code: what it returns, throws or calls next. -/
inductive Code (V E W : Type) where
  | done (value : V)
  | throw (error : E)
  /-- The `value` getter of a signal or a computed, which goes on like
  `peek` once the read is tracked. -/
  | read (id : ℕ) (next : Except E V → Code V E W)
  | peek (id : ℕ) (next : Except E V → Code V E W)
  /-- The `value` setter of a signal. -/
  | write (id : ℕ) (newValue : V) (next : Except E V → Code V E W)
  /-- `notify()` of a signal. -/
  | notify (id : ℕ) (next : Except E V → Code V E W)
  | untrack (fn : Code V E W) (next : Except E V → Code V E W)
  | batch (fn : Code V E W) (next : Except E V → Code V E W)
  | signal (initial : V) (next : ℕ → Code V E W)
  | computed (fn : Code V E W) (next : ℕ → Code V E W)
  /-- `domEffect` and `lifecycleEffect`, which are the same outside the
  server. What `dispose` is later called with is the effect. -/
  | domEffect (fn : Code V E W) (next : Except E ℕ → Code V E W)
  | deferredDomEffect (fn : Code V E W) (next : Except E ℕ → Code V E W)
  | dispose (id : ℕ) (next : Code V E W)
  | startHydration (next : Except String Unit → Code V E W)
  | endHydration (next : Code V E W)
  | pauseHydration (next : Code V E W)
  | resumeHydration (next : Code V E W)
  | discardDeferredEffects (next : Code V E W)
  | host (update : W → W) (next : W → Code V E W)

/-- What a call still has to do. -/
inductive Frame (V E W : Type) where
  /-- User code goes on. -/
  | call (next : Except E V → Code V E W)
  /-- The `finally` of `_compute`, and user code that goes on with what the
  getter returns. -/
  | compute (id : ℕ) (prev : Option ℕ) (next : Except E V → Code V E W)
  /-- The `finally` of `_run`. -/
  | run (id : ℕ) (prev : Option ℕ)
  /-- The `finally` of `untrack`. -/
  | untrack (prev : Option ℕ)
  /-- The `finally` of `batch`. -/
  | batch
  /-- The loops of `flush`, with what is left of the queue, and how the
  batch ends that flushes. -/
  | flush (queue : List ℕ) (outcome : Except E V)
  /-- The loop of `flushDeferredEffects`. -/
  | deferred (queue : List ℕ)

/-- User code running, or a call that returns or throws. -/
inductive Control (V E W : Type) where
  | run (code : Code V E W)
  | unwind (outcome : Except E V)

structure Machine (V E W : Type) where
  graph : NodeGraph V (Code V E W)
  host : W
  control : Control V E W
  stack : List (Frame V E W)

namespace Machine

variable {V E W : Type}

/-- A program on an empty graph. -/
def start (main : Code V E W) (host : W) : Machine V E W :=
  { graph := .new, host := host, control := .run main, stack := [] }

/-- Code goes on. -/
def goOn (m : Machine V E W) (code : Code V E W) : Machine V E W := { m with control := .run code }

/-- A user function is called. -/
def enter (m : Machine V E W) (graph : NodeGraph V (Code V E W)) (frames : List (Frame V E W))
    (fn : Code V E W) : Machine V E W :=
  { m with graph := graph, control := .run fn, stack := frames ++ m.stack }

variable [Inhabited V]

/-- The call of `flush`, at the end of a batch. -/
def startFlush (m : Machine V E W) (graph : NodeGraph V (Code V E W)) (frames : List (Frame V E W))
    (outcome : Except E V) : Machine V E W :=
  { m with
    graph := graph
    control := .unwind (.ok default)
    stack := .flush [] outcome :: (frames ++ m.stack) }

/-- `peek`, and the `value` getter after it tracked the read. -/
def getValue (m : Machine V E W) (id : ℕ) (next : Except E V → Code V E W) : Machine V E W :=
  match m.graph.bodyAt id with
  | some (.signal value) => m.goOn (next (.ok value))
  | some (.computed fn cachedValue state) =>
    if state = .clean then m.goOn (next (.ok cachedValue))
    else m.enter (m.graph.beginCompute id) [.compute id m.graph.currentSubscriber next] fn
  | _ => m

/-- `_notifySubscribers`. -/
def notifySubscribers (m : Machine V E W) (id : ℕ) (next : Except E V → Code V E W) :
    Machine V E W :=
  let graph := m.graph.notifySubscribers id
  if graph.batchDepth = 0 then m.startFlush graph [.call next] (.ok default)
  else { m with graph := graph, control := .run (next (.ok default)) }

/-- User code calls the runtime. A reference to something that is not
there cannot be had: a machine with such a call stays where it is. -/
def call [DecidableEq V] (m : Machine V E W) : Code V E W → Machine V E W
  | .done value => { m with control := .unwind (.ok value) }
  | .throw error => { m with control := .unwind (.error error) }
  | .read id next =>
    match m.graph.bodyAt id with
    | some (.signal _) => goOn { m with graph := m.graph.track id } (.peek id next)
    | some (.computed _ _ _) => goOn { m with graph := m.graph.track id } (.peek id next)
    | _ => m
  | .peek id next => m.getValue id next
  | .write id newValue next =>
    match m.graph.bodyAt id with
    | some (.signal value) =>
      if value = newValue then m.goOn (next (.ok default))
      else
        notifySubscribers { m with graph := m.graph.modifyBody id (.setValue newValue) } id next
    | _ => m
  | .notify id next =>
    match m.graph.bodyAt id with
    | some (.signal _) => m.notifySubscribers id next
    | _ => m
  | .untrack fn next =>
    m.enter (m.graph.setSubscriber none) [.untrack m.graph.currentSubscriber, .call next] fn
  | .batch fn next => m.enter m.graph.enterBatch [.batch, .call next] fn
  | .signal initial next =>
    goOn { m with graph := m.graph.create (.signal initial) } (next m.graph.nodes.length)
  | .computed fn next =>
    goOn { m with graph := m.graph.create (.computed fn default .dirty) }
      (next m.graph.nodes.length)
  | .domEffect fn next =>
    let id := m.graph.nodes.length
    let graph := m.graph.create (.effect fn false)
    m.enter (graph.beginRun id)
      [.run id graph.currentSubscriber, .call fun outcome => next (outcome.map fun _ => id)] fn
  | .deferredDomEffect fn next =>
    let id := m.graph.nodes.length
    let graph := m.graph.create (.effect fn false)
    match graph.queueDeferredEffect id with
    | some graph => goOn { m with graph := graph } (next (.ok id))
    | none =>
      m.enter (graph.beginRun id)
        [.run id graph.currentSubscriber, .call fun outcome => next (outcome.map fun _ => id)]
        fn
  | .dispose id next =>
    match m.graph.bodyAt id with
    | some (.effect _ _) => goOn { m with graph := m.graph.dispose id } next
    | _ => m
  | .startHydration next =>
    if m.graph.isHydrating then
      m.goOn (next (.error ("[hydrate] startHydration() called while hydration is already " ++
        "active. Concurrent hydration is not supported.")))
    else
      goOn { m with graph := { m.graph with isHydrating := true, deferredEffects := some [] } }
        (next (.ok ()))
  | .endHydration next =>
    { m with
      graph := { m.graph with isHydrating := false, deferredEffects := none }
      control := .unwind (.ok default)
      stack := .deferred (m.graph.deferredEffects.getD []) :: .call (fun _ => next) :: m.stack }
  | .pauseHydration next => goOn { m with graph := { m.graph with isHydrating := false } } next
  | .resumeHydration next => goOn { m with graph := { m.graph with isHydrating := true } } next
  | .discardDeferredEffects next =>
    goOn { m with graph := { m.graph with deferredEffects := none } } next
  | .host update next => { m with host := update m.host, control := .run (next m.host) }

/-- An effect taken from a queue runs, unless it is disposed. What is
left of the loop is on the stack. -/
def runQueued (m : Machine V E W) (id : ℕ) (loop : Frame V E W) (stack : List (Frame V E W)) :
    Machine V E W :=
  match m.graph.bodyAt id with
  | some (.effect fn false) =>
    enter { m with stack := stack } (m.graph.beginRun id)
      [.run id m.graph.currentSubscriber, loop] fn
  | _ => { m with control := .unwind (.ok default), stack := loop :: stack }

/-- A call returns or throws to the call that made it. -/
def unwind (m : Machine V E W) (outcome : Except E V) : Machine V E W :=
  match m.stack with
  | [] => m
  | .call next :: stack => { m with control := .run (next outcome), stack := stack }
  | .compute id prev next :: stack =>
    { m with
      graph := m.graph.endCompute id prev outcome
      control := .run (next outcome)
      stack := stack }
  | .run _ prev :: stack => { m with graph := m.graph.setSubscriber prev, stack := stack }
  | .untrack prev :: stack => { m with graph := m.graph.setSubscriber prev, stack := stack }
  | .batch :: stack =>
    let graph := m.graph.leaveBatch
    let outcome := outcome.map fun _ => default
    if graph.batchDepth = 0 then startFlush { m with stack := stack } graph [] outcome
    else { m with graph := graph, control := .unwind outcome, stack := stack }
  | .flush queue saved :: stack =>
    match outcome, queue with
    | .error _, _ => { m with stack := stack }
    | .ok _, id :: queue => m.runQueued id (.flush queue saved) stack
    | .ok _, [] =>
      if m.graph.pendingEffects = [] then { m with control := .unwind saved, stack := stack }
      else
        { m with
          graph := { m.graph with pendingEffects := [] }
          stack := .flush m.graph.pendingEffects saved :: stack }
  | .deferred (id :: queue) :: stack => m.runQueued id (.deferred queue) stack
  | .deferred [] :: stack => { m with control := .unwind (.ok default), stack := stack }

/-- One step. A machine whose program has ended stays where it is. -/
def step [DecidableEq V] (m : Machine V E W) : Machine V E W :=
  match m.control with
  | .run code => m.call code
  | .unwind outcome => m.unwind outcome

/-- The machine after a number of steps. -/
def steps [DecidableEq V] (m : Machine V E W) : ℕ → Machine V E W
  | 0 => m
  | n + 1 => (m.steps n).step

end Machine

end Vertz.Ui.Runtime
