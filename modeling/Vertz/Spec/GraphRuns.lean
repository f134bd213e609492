import Vertz.Lib.Run
import Vertz.Native.SignalGraph

/-!
# `Vertz.Spec.GraphRuns`: signal graphs over their operations

A run is any sequence of operations. A `complete` takes a `begin` that is
still running, in any order, and everything else takes any argument.
`SoundStep` is what is asked of each step and `Careful` is the condition
under which the graph gives it.
-/

namespace Vertz.Spec

open Vertz.Native

variable {V F : Type}

inductive GraphOp (V F : Type) where
  | createSignal (value : V) (hmrKey : Option String)
  | createComputed (computeFn : F)
  | allocEffect (effectFn : F)
  | read (id : ℕ)
  | beginEvaluate (id : ℕ)
  /-- Complete the evaluation at a place of `evaluating`. -/
  | completeEvaluate (place : ℕ) (newValue : V)
  | write (id : ℕ) (newValue : V)
  | beginEffect (id : ℕ)
  /-- Complete the run at a place of `running`. -/
  | completeEffect (place : ℕ)
  | batchStart
  | batchEnd
  | drain
  | dispose (id : ℕ)
  | disposeEffect (id : ℕ)
  deriving DecidableEq, Repr

/-- A graph, and the runs that have begun and not completed. -/
structure GraphRuntime (V F : Type) where
  graph : SignalGraph V F
  evaluating : List (ℕ × SignalGraph.RunPrep F)
  running : List (SignalGraph.RunPrep F)
  deriving DecidableEq, Repr

namespace GraphRuntime

def new : GraphRuntime V F := ⟨.new, [], []⟩

def apply [DecidableEq V] (rt : GraphRuntime V F) : GraphOp V F → GraphRuntime V F
  | .createSignal value hmrKey => { rt with graph := (rt.graph.createSignal value hmrKey).2 }
  | .createComputed computeFn => { rt with graph := (rt.graph.createComputed computeFn).2 }
  | .allocEffect effectFn => { rt with graph := (rt.graph.allocEffect effectFn).2 }
  | .read id => { rt with graph := (rt.graph.tryRead id).2 }
  | .beginEvaluate id =>
    match rt.graph.beginEvaluateComputed id with
    | (.ok prep, graph) => { rt with graph, evaluating := (id, prep) :: rt.evaluating }
    | (.error _, graph) => { rt with graph }
  | .completeEvaluate place newValue =>
    match rt.evaluating[place]? with
    | some (id, prep) =>
      { rt with
        graph := (rt.graph.completeEvaluateComputed id newValue prep.oldTracking).2
        evaluating := rt.evaluating.eraseIdx place }
    | none => rt
  | .write id newValue => { rt with graph := (rt.graph.writeSignalNoFlush id newValue).2 }
  | .beginEffect id =>
    match rt.graph.beginRunEffect id with
    | (some prep, graph) => { rt with graph, running := prep :: rt.running }
    | (none, graph) => { rt with graph }
  | .completeEffect place =>
    match rt.running[place]? with
    | some prep =>
      { rt with
        graph := rt.graph.completeRunEffect prep.oldTracking
        running := rt.running.eraseIdx place }
    | none => rt
  | .batchStart => { rt with graph := rt.graph.batchStart }
  | .batchEnd => { rt with graph := rt.graph.batchEndNoFlush }
  | .drain => { rt with graph := rt.graph.drainPendingEffects.2 }
  | .dispose id => { rt with graph := rt.graph.dispose id }
  | .disposeEffect id => { rt with graph := rt.graph.disposeEffect id }

end GraphRuntime

inductive NodeKind where
  | signal
  | computed
  | effect
  | empty
  deriving DecidableEq, Repr

def kindOf : SignalNode V F → NodeKind
  | .signal _ _ _ => .signal
  | .computed _ _ _ _ _ => .computed
  | .effect _ _ _ => .effect
  | .empty _ => .empty

/-- What is in a slot; `none` when there is no such slot. -/
def kindAt (g : SignalGraph V F) (id : ℕ) : Option NodeKind :=
  g.nodes[id]?.map kindOf

def IsLive (g : SignalGraph V F) (id : ℕ) : Prop :=
  ∃ kind, kindAt g id = some kind ∧ kind ≠ .empty

/-! ### What is asked of a run -/

/-- The free list has no duplicates and lists exactly the empty slots. -/
def FreeListExact (g : SignalGraph V F) : Prop :=
  g.freeList.Nodup ∧ ∀ id, id ∈ g.freeList ↔ kindAt g id = some .empty

/-- An edge between live nodes is stored at both ends or at neither. -/
def EdgesSymmetric (g : SignalGraph V F) : Prop :=
  ∀ source sub, IsLive g source → IsLive g sub →
    (sub ∈ g.subscribersOf source ↔ source ∈ g.sourcesOf sub)

/-- The slot an operation takes for a new node. -/
def allocated (g : SignalGraph V F) : GraphOp V F → Option ℕ
  | .createSignal value hmrKey => some (g.createSignal value hmrKey).1
  | .createComputed computeFn => some (g.createComputed computeFn).1
  | .allocEffect effectFn => some (g.allocEffect effectFn).1
  | _ => none

/-- The step takes no live node's slot and leads to a graph whose free
list is exact and whose edges are symmetric. -/
def SoundStep [DecidableEq V] (rt : GraphRuntime V F) (op : GraphOp V F) : Prop :=
  (∀ id, allocated rt.graph op = some id → ¬ IsLive rt.graph id) ∧
    FreeListExact (rt.apply op).graph ∧ EdgesSymmetric (rt.apply op).graph

/-! ### When a step gives it -/

/-- A new node gets a free slot that no node names as a subscriber, or a
new slot whose index fits 32 bits. -/
def CanAllocate (g : SignalGraph V F) : Prop :=
  match g.freeList with
  | id :: _ => ∀ source, id ∉ g.subscribersOf source
  | [] => g.nodes.length < 2 ^ 32

/-- A read of this node would not be tracked for a signal. -/
def CanTrack (g : SignalGraph V F) (source : ℕ) (subscriber : Option ℕ) : Prop :=
  (kindAt g source = some .signal ∨ kindAt g source = some .computed) →
    ∀ sub, subscriber = some sub → kindAt g sub ≠ some .signal

/-- A node that is read without being evaluated. -/
def isReady (g : SignalGraph V F) (id : ℕ) : Bool :=
  match g.nodes[id]? with
  | some (.signal _ _ _) => true
  | some (.computed _ (some _) .clean _ _) => true
  | _ => false

/-- No slot is freed twice, no slot is taken while a dead subscriber's
edges still name it, and no read is tracked for a slot that a signal has
taken from a running computed or effect. -/
def Careful (rt : GraphRuntime V F) : GraphOp V F → Prop
  | .createSignal _ _ => CanAllocate rt.graph
  | .createComputed _ => CanAllocate rt.graph
  | .allocEffect _ => CanAllocate rt.graph
  | .read id => isReady rt.graph id = true → CanTrack rt.graph id rt.graph.trackingSubscriber
  | .completeEvaluate place _ =>
    ∀ id prep, rt.evaluating[place]? = some (id, prep) → CanTrack rt.graph id prep.oldTracking
  | .dispose id => kindAt rt.graph id ≠ some .empty
  | .disposeEffect id => kindAt rt.graph id ≠ some .empty
  | _ => True

end Vertz.Spec
