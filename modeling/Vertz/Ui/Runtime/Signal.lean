import Mathlib.Data.List.Basic

/-!
# `Vertz.Ui.Runtime.Signal`: signals, computeds and effects

`packages/ui/src/runtime/signal.ts`, `tracking.ts` and the queue of
`scheduler.ts`. Objects are numbered as they are created. The number
stands for the reference to the object and for `_id`, the key of the
queue.

An edge is stored at both of its ends: in `_subscribers` of the source
and in `_sources` of the subscriber. A signal has no sources and an
effect no subscribers, so these lists stay empty.

A value is a JavaScript value up to `Object.is`, `default` is
`undefined`, and `F` is the type of the user's functions. Left out are
the fields of the server's render context, which keeps the same state
for each request, the context scope an effect restores, the callback on
reads and the collector of the dev server: none of them changes the
graph.
-/

namespace Vertz.Ui.Runtime

inductive ComputedState where
  | clean
  | dirty
  | computing
  deriving DecidableEq, Repr

/-- An object, its edges apart. -/
inductive Body (V F : Type) where
  | signal (value : V)
  | computed (fn : F) (cachedValue : V) (state : ComputedState)
  | effect (fn : F) (disposed : Bool)

structure Node (V F : Type) where
  body : Body V F
  subscribers : List ℕ := []
  sources : List ℕ := []

/-- The objects, and the module variables of the runtime. -/
structure NodeGraph (V F : Type) where
  nodes : List (Node V F)
  currentSubscriber : Option ℕ
  batchDepth : ℕ
  pendingEffects : List ℕ
  isHydrating : Bool
  /-- The effects whose first run waits for the end of the hydration. -/
  deferredEffects : Option (List ℕ)

/-- `Set.add`, and `Map.set` where the key stands for the entry. -/
def setAdd (xs : List ℕ) (x : ℕ) : List ℕ := if x ∈ xs then xs else xs ++ [x]

@[simp] theorem mem_setAdd {xs : List ℕ} {x y : ℕ} : y ∈ setAdd xs x ↔ y ∈ xs ∨ y = x := by
  rw [setAdd]
  split
  · next h =>
      constructor
      · exact Or.inl
      · intro hy
        rcases hy with hy | rfl
        · exact hy
        · exact h
  · simp

namespace Body

variable {V F : Type}

def setValue (newValue : V) : Body V F → Body V F
  | signal _ => signal newValue
  | body => body

def setState (state : ComputedState) : Body V F → Body V F
  | computed fn cachedValue _ => computed fn cachedValue state
  | body => body

def setCached (newValue : V) : Body V F → Body V F
  | computed fn _ state => computed fn newValue state
  | body => body

def setDisposed : Body V F → Body V F
  | effect fn _ => effect fn true
  | body => body

end Body

namespace NodeGraph

variable {V F : Type}

def new : NodeGraph V F := ⟨[], none, 0, [], false, none⟩

def modifyNode (g : NodeGraph V F) (id : ℕ) (f : Node V F → Node V F) : NodeGraph V F :=
  { g with nodes := g.nodes.modify id f }

def modifyBody (g : NodeGraph V F) (id : ℕ) (f : Body V F → Body V F) : NodeGraph V F :=
  g.modifyNode id fun node => { node with body := f node.body }

def bodyAt (g : NodeGraph V F) (id : ℕ) : Option (Body V F) := g.nodes[id]?.map Node.body

def subscribersOf (g : NodeGraph V F) (id : ℕ) : List ℕ :=
  (g.nodes[id]?.map Node.subscribers).getD []

def sourcesOf (g : NodeGraph V F) (id : ℕ) : List ℕ := (g.nodes[id]?.map Node.sources).getD []

/-- `new SignalImpl`, `new ComputedImpl`, `new EffectImpl`: the new
object has the number `g.nodes.length`. -/
def create (g : NodeGraph V F) (body : Body V F) : NodeGraph V F :=
  { g with nodes := g.nodes ++ [{ body := body }] }

/-! ### Tracking -/

def setSubscriber (g : NodeGraph V F) (sub : Option ℕ) : NodeGraph V F :=
  { g with currentSubscriber := sub }

def addSubscriber (g : NodeGraph V F) (id sub : ℕ) : NodeGraph V F :=
  g.modifyNode id fun node => { node with subscribers := setAdd node.subscribers sub }

def deleteSubscriber (g : NodeGraph V F) (id sub : ℕ) : NodeGraph V F :=
  g.modifyNode id fun node => { node with subscribers := node.subscribers.filter (· != sub) }

/-- `_addSource`. -/
def addSource (g : NodeGraph V F) (sub id : ℕ) : NodeGraph V F :=
  g.modifyNode sub fun node => { node with sources := setAdd node.sources id }

/-- What the `value` getters do for the current subscriber. -/
def track (g : NodeGraph V F) (id : ℕ) : NodeGraph V F :=
  match g.currentSubscriber with
  | some sub => (g.addSubscriber id sub).addSource sub id
  | none => g

/-- `_clearSources`. -/
def clearSources (g : NodeGraph V F) (id : ℕ) : NodeGraph V F :=
  ((g.sourcesOf id).foldl (fun g source => g.deleteSubscriber source id) g).modifyNode id
    fun node => { node with sources := [] }

/-! ### Notification -/

/-- An effect is put in the queue, once. -/
def queueEffect (g : NodeGraph V F) (id : ℕ) : NodeGraph V F :=
  { g with pendingEffects := setAdd g.pendingEffects id }

/-- `scheduleNotify`, with `_notify` of a computed. Every call comes from
within a batch, so an effect is put in the queue and never run right
away. Every call that goes deeper has marked another computed, so a depth
of more than the number of objects is never used up. -/
def scheduleNotify : ℕ → NodeGraph V F → ℕ → NodeGraph V F
  | 0, g, _ => g
  | depth + 1, g, id =>
    match g.bodyAt id with
    | some (.computed _ _ state) =>
      if state = .dirty then g
      else (g.subscribersOf id).foldl (scheduleNotify depth) (g.modifyBody id (.setState .dirty))
    | some (.effect _ _) => g.queueEffect id
    | _ => g

def enterBatch (g : NodeGraph V F) : NodeGraph V F := { g with batchDepth := g.batchDepth + 1 }

def leaveBatch (g : NodeGraph V F) : NodeGraph V F := { g with batchDepth := g.batchDepth - 1 }

/-- `_notifySubscribers`, up to the flush at the end of its batch. -/
def notifySubscribers (g : NodeGraph V F) (id : ℕ) : NodeGraph V F :=
  ((g.subscribersOf id).foldl (scheduleNotify (g.nodes.length + 1)) g.enterBatch).leaveBatch

/-! ### Runs -/

/-- `_compute`, up to the call of the function. -/
def beginCompute (g : NodeGraph V F) (id : ℕ) : NodeGraph V F :=
  ((g.modifyBody id (.setState .computing)).clearSources id).setSubscriber (some id)

/-- The `finally` of `_compute`, after the function returned or threw. -/
def endCompute {E : Type} (g : NodeGraph V F) (id : ℕ) (prev : Option ℕ) (outcome : Except E V) :
    NodeGraph V F :=
  let g := match outcome with
    | .ok newValue => g.modifyBody id (.setCached newValue)
    | .error _ => g
  (g.setSubscriber prev).modifyBody id (.setState .clean)

/-- `_run`, up to the call of the function. -/
def beginRun (g : NodeGraph V F) (id : ℕ) : NodeGraph V F :=
  (g.clearSources id).setSubscriber (some id)

/-- `_dispose`. -/
def dispose (g : NodeGraph V F) (id : ℕ) : NodeGraph V F :=
  (g.modifyBody id .setDisposed).clearSources id

/-! ### Hydration -/

/-- `queueDeferredEffect`: `none` when no hydration is active. -/
def queueDeferredEffect (g : NodeGraph V F) (id : ℕ) : Option (NodeGraph V F) :=
  match g.isHydrating, g.deferredEffects with
  | true, some effects => some { g with deferredEffects := some (effects ++ [id]) }
  | _, _ => none

end NodeGraph

end Vertz.Ui.Runtime
