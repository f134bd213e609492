import Mathlib.Algebra.Group.Nat.Defs
import Mathlib.Data.List.Basic

/-!
# `Vertz.Native.SignalGraph`: the reactive graph of the native runtime

Nodes live in slots and name each other by slot index. A disposed node
leaves an empty slot on the free list, and the next node created reuses
it. An edge is stored at both of its ends: in the source's subscribers
and in the subscriber's sources.

Running a function of the user is split in two operations, a `begin` that
clears the old edges and starts tracking, and a `complete` that stores
the result, so that any operation can happen in between.

A value is a JavaScript value up to `Object.is`, and `F` is the type of
the user's functions.
-/

namespace Vertz.Native

inductive SignalGraphError where
  | invalidId (id : ℕ)
  | nodeDisposed (id : ℕ) (hmrKey : Option String)
  | cycleDetected (id : ℕ)
  deriving DecidableEq, Repr

inductive ComputedState where
  /-- The cached value is current. -/
  | clean
  /-- A source changed: evaluated on the next read. -/
  | dirty
  /-- Being evaluated. -/
  | computing
  deriving DecidableEq, Repr

inductive SignalNode (V F : Type) where
  | signal (value : V) (subscribers : List ℕ) (hmrKey : Option String)
  | computed (computeFn : F) (cachedValue : Option V) (state : ComputedState)
      (sources subscribers : List ℕ)
  | effect (effectFn : F) (sources : List ℕ) (disposed : Bool)
  /-- A free slot, with the key of the signal that was in it. -/
  | empty (hmrKey : Option String)
  deriving DecidableEq, Repr

namespace SignalNode

variable {V F : Type}

def subscribers : SignalNode V F → List ℕ
  | signal _ subscribers _ => subscribers
  | computed _ _ _ _ subscribers => subscribers
  | effect _ _ _ => []
  | empty _ => []

def sources : SignalNode V F → List ℕ
  | signal _ _ _ => []
  | computed _ _ _ sources _ => sources
  | effect _ sources _ => sources
  | empty _ => []

def mapSubscribers (f : List ℕ → List ℕ) : SignalNode V F → SignalNode V F
  | signal value subscribers hmrKey => signal value (f subscribers) hmrKey
  | computed computeFn cachedValue state sources subscribers =>
    computed computeFn cachedValue state sources (f subscribers)
  | node => node

def mapSources (f : List ℕ → List ℕ) : SignalNode V F → SignalNode V F
  | computed computeFn cachedValue state sources subscribers =>
    computed computeFn cachedValue state (f sources) subscribers
  | effect effectFn sources disposed => effect effectFn (f sources) disposed
  | node => node

def setState (state : ComputedState) : SignalNode V F → SignalNode V F
  | computed computeFn cachedValue _ sources subscribers =>
    computed computeFn cachedValue state sources subscribers
  | node => node

/-- Cache a computed's value, which is current now. -/
def setCached (value : V) : SignalNode V F → SignalNode V F
  | computed computeFn _ _ sources subscribers =>
    computed computeFn (some value) .clean sources subscribers
  | node => node

def setValue (value : V) : SignalNode V F → SignalNode V F
  | signal _ subscribers hmrKey => signal value subscribers hmrKey
  | node => node

def setDisposed : SignalNode V F → SignalNode V F
  | effect effectFn sources _ => effect effectFn sources true
  | node => node

end SignalNode

/-- The free list has the slot freed last at its head. -/
structure SignalGraph (V F : Type) where
  nodes : List (SignalNode V F)
  freeList : List ℕ
  batchDepth : ℕ
  pendingEffects : List ℕ
  /-- Which effects are in `pendingEffects`. -/
  effectScheduled : List Bool
  trackingSubscriber : Option ℕ
  deriving DecidableEq, Repr

namespace SignalGraph

variable {V F : Type}

def new : SignalGraph V F := ⟨[], [], 0, [], [], none⟩

def modifyNode (g : SignalGraph V F) (id : ℕ) (f : SignalNode V F → SignalNode V F) :
    SignalGraph V F :=
  { g with nodes := g.nodes.modify id f }

/-! ### Creation -/

/-- Reuse a free slot, or add one. A slot's index is a `u32`. -/
def allocSlot (g : SignalGraph V F) (node : SignalNode V F) : ℕ × SignalGraph V F :=
  match g.freeList with
  | id :: rest => (id, { g with nodes := g.nodes.set id node, freeList := rest })
  | [] =>
    (g.nodes.length % 2 ^ 32,
      { g with nodes := g.nodes ++ [node], effectScheduled := g.effectScheduled ++ [false] })

def createSignal (g : SignalGraph V F) (value : V) (hmrKey : Option String) :
    ℕ × SignalGraph V F :=
  g.allocSlot (.signal value [] hmrKey)

def createComputed (g : SignalGraph V F) (computeFn : F) : ℕ × SignalGraph V F :=
  g.allocSlot (.computed computeFn none .dirty [] [])

def allocEffect (g : SignalGraph V F) (effectFn : F) : ℕ × SignalGraph V F :=
  g.allocSlot (.effect effectFn [] false)

/-! ### Edges -/

/-- Whether the source takes the subscriber on: it has subscribers, and
this one is not among them. -/
def addsToSource (g : SignalGraph V F) (sourceId subscriberId : ℕ) : Bool :=
  match g.nodes[sourceId]? with
  | some (.signal _ subscribers _) => !subscribers.contains subscriberId
  | some (.computed _ _ _ _ subscribers) => !subscribers.contains subscriberId
  | _ => false

/-- The subscriber subscribes to the source. -/
def trackDependency (g : SignalGraph V F) (sourceId subscriberId : ℕ) : SignalGraph V F :=
  if g.addsToSource sourceId subscriberId then
    (g.modifyNode sourceId (.mapSubscribers (· ++ [subscriberId]))).modifyNode subscriberId
      (.mapSources fun sources =>
        if sources.contains sourceId then sources else sources ++ [sourceId])
  else g

/-- Track a read for the active subscriber, if there is one. -/
def trackRead (g : SignalGraph V F) (id : ℕ) : SignalGraph V F :=
  match g.trackingSubscriber with
  | some subscriberId => g.trackDependency id subscriberId
  | none => g

def sourcesOf (g : SignalGraph V F) (id : ℕ) : List ℕ :=
  (g.nodes[id]?.map SignalNode.sources).getD []

def subscribersOf (g : SignalGraph V F) (id : ℕ) : List ℕ :=
  (g.nodes[id]?.map SignalNode.subscribers).getD []

/-- Remove a node from the subscribers of its sources. -/
def removeFromSources (g : SignalGraph V F) (id : ℕ) : SignalGraph V F :=
  (g.sourcesOf id).foldl
    (fun g source => g.modifyNode source (.mapSubscribers (·.filter (· != id)))) g

/-- Remove a node from the sources of its subscribers. -/
def removeFromSubscribers (g : SignalGraph V F) (id : ℕ) : SignalGraph V F :=
  (g.subscribersOf id).foldl
    (fun g subscriber => g.modifyNode subscriber (.mapSources (·.filter (· != id)))) g

/-- Clear a node's old sources before it runs. -/
def clearSources (g : SignalGraph V F) (id : ℕ) : SignalGraph V F :=
  (g.removeFromSources id).modifyNode id (.mapSources fun _ => [])

/-! ### Notification -/

/-- Queue an effect that is not in the queue. -/
def queueEffect (g : SignalGraph V F) (id : ℕ) : SignalGraph V F :=
  if g.effectScheduled.getD id false then g
  else
    { g with
      effectScheduled := g.effectScheduled.set id true
      pendingEffects := g.pendingEffects ++ [id] }

/-- `schedule_notify` and `mark_computed_dirty`: a computed is marked
dirty and passes the notification on, an effect is queued. Every call
that goes deeper has marked another computed, so a depth of more than the
number of nodes is never used up. -/
def scheduleNotify : ℕ → SignalGraph V F → ℕ → SignalGraph V F
  | 0, g, _ => g
  | depth + 1, g, subscriberId =>
    match g.nodes[subscriberId]? with
    | some (.computed _ _ state _ subscribers) =>
      if state = .dirty then g
      else
        subscribers.foldl (scheduleNotify depth)
          (g.modifyNode subscriberId (.setState .dirty))
    | some (.effect _ _ disposed) => if disposed then g else g.queueEffect subscriberId
    | _ => g

def notifySubscribers (g : SignalGraph V F) (id : ℕ) : SignalGraph V F :=
  (g.subscribersOf id).foldl (scheduleNotify (g.nodes.length + 1)) g

/-! ### Reads and writes -/

inductive ReadOutcome (V : Type) where
  | ready (value : V)
  | needsEval
  deriving DecidableEq, Repr

/-- Read a value that is ready, and track the read. -/
def tryRead (g : SignalGraph V F) (id : ℕ) :
    Except SignalGraphError (ReadOutcome V) × SignalGraph V F :=
  match g.nodes[id]? with
  | none => (.error (.invalidId id), g)
  | some (.signal value _ _) => (.ok (.ready value), g.trackRead id)
  | some (.computed _ (some cached) .clean _ _) => (.ok (.ready cached), g.trackRead id)
  | some (.computed _ none .clean _ _) => (.ok .needsEval, g)
  | some (.computed _ _ .dirty _ _) => (.ok .needsEval, g)
  | some (.computed _ _ .computing _ _) => (.error (.cycleDetected id), g)
  | some (.empty hmrKey) => (.error (.nodeDisposed id hmrKey), g)
  | some (.effect _ _ _) => (.error (.invalidId id), g)

/-- Write a signal and notify; `true` when the value changed. -/
def writeSignalNoFlush [DecidableEq V] (g : SignalGraph V F) (id : ℕ) (newValue : V) :
    Except SignalGraphError Bool × SignalGraph V F :=
  match g.nodes[id]? with
  | none => (.error (.invalidId id), g)
  | some (.signal value _ _) =>
    if value = newValue then (.ok false, g)
    else (.ok true, (g.modifyNode id (.setValue newValue)).notifySubscribers id)
  | some (.computed _ _ _ _ _) => (.error (.invalidId id), g)
  | some (.effect _ _ _) => (.error (.invalidId id), g)
  | some (.empty hmrKey) => (.error (.nodeDisposed id hmrKey), g)

/-! ### Evaluation of computeds -/

/-- What a `begin` hands to its `complete`: the function to call and the
subscriber that was active. -/
structure RunPrep (F : Type) where
  fn : F
  oldTracking : Option ℕ
  deriving DecidableEq, Repr

def beginEvaluateComputed (g : SignalGraph V F) (id : ℕ) :
    Except SignalGraphError (RunPrep F) × SignalGraph V F :=
  match g.nodes[id]? with
  | some (.computed computeFn _ state _ _) =>
    if state = .computing then (.error (.cycleDetected id), g)
    else
      (.ok ⟨computeFn, g.trackingSubscriber⟩,
        { (g.modifyNode id (.setState .computing)).clearSources id with
          trackingSubscriber := some id })
  | _ => (.error (.invalidId id), g)

/-- Whether a result differs from the cached one. -/
def valueChanged [DecidableEq V] (g : SignalGraph V F) (id : ℕ) (newValue : V) : Bool :=
  match g.nodes[id]? with
  | some (.computed _ (some old) _ _ _) => decide (old ≠ newValue)
  | _ => true

/-- Restore the subscriber, cache the result and notify when it changed. -/
def storeResult [DecidableEq V] (g : SignalGraph V F) (id : ℕ) (newValue : V)
    (oldTracking : Option ℕ) : SignalGraph V F :=
  let restored : SignalGraph V F := { g with trackingSubscriber := oldTracking }
  let cached := restored.modifyNode id (.setCached newValue)
  if g.valueChanged id newValue then cached.notifySubscribers id else cached

def completeEvaluateComputed [DecidableEq V] (g : SignalGraph V F) (id : ℕ) (newValue : V)
    (oldTracking : Option ℕ) : Except SignalGraphError V × SignalGraph V F :=
  let tracked := (g.storeResult id newValue oldTracking).trackRead id
  (match tracked.nodes[id]? with
    | some (.computed _ (some cached) _ _ _) => .ok cached
    | _ => .error (.invalidId id),
    tracked)

/-! ### Effects and batches -/

def beginRunEffect (g : SignalGraph V F) (id : ℕ) : Option (RunPrep F) × SignalGraph V F :=
  match g.nodes[id]? with
  | some (.effect effectFn _ disposed) =>
    if disposed then (none, g)
    else
      (some ⟨effectFn, g.trackingSubscriber⟩,
        { g.clearSources id with trackingSubscriber := some id })
  | _ => (none, g)

def completeRunEffect (g : SignalGraph V F) (oldTracking : Option ℕ) : SignalGraph V F :=
  { g with trackingSubscriber := oldTracking }

def batchStart (g : SignalGraph V F) : SignalGraph V F := { g with batchDepth := g.batchDepth + 1 }

def batchEndNoFlush (g : SignalGraph V F) : SignalGraph V F :=
  { g with batchDepth := g.batchDepth - 1 }

def hasPendingEffects (g : SignalGraph V F) : Bool := !g.pendingEffects.isEmpty

/-- The queued effects, and the graph with an empty queue. -/
def drainPendingEffects (g : SignalGraph V F) : List ℕ × SignalGraph V F :=
  (g.pendingEffects,
    { g with
      pendingEffects := []
      effectScheduled := g.effectScheduled.map fun _ => false })

/-! ### Disposal -/

/-- The key a disposed signal leaves behind. -/
def keptKey (g : SignalGraph V F) (id : ℕ) : Option String :=
  match g.nodes[id]? with
  | some (.signal _ _ hmrKey) => hmrKey
  | _ => none

def dispose (g : SignalGraph V F) (id : ℕ) : SignalGraph V F :=
  if g.nodes.length ≤ id then g
  else
    let unlinked := (g.removeFromSources id).removeFromSubscribers id
    { unlinked with
      nodes := unlinked.nodes.set id (.empty (g.keptKey id))
      freeList := id :: unlinked.freeList }

def disposeEffect (g : SignalGraph V F) (id : ℕ) : SignalGraph V F :=
  (g.modifyNode id .setDisposed).dispose id

end SignalGraph

end Vertz.Native
