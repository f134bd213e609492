import Mathlib.Data.List.AList
import Vertz.Lib.Placement

/-!
# `Vertz.Ui.Dom.List`: keyed list reconciliation

The keyed mode of `__list`. A container has child nodes; what the items
render is left out, so a node is its identity, and a disposal scope is
one that is live until its cleanups run. While a page is hydrated
`renderFn` claims the children the server rendered, in order; otherwise
it creates a node.

The variables one call of `__list` closes over are a `ListRegion`: the
effect that follows the items (`ListRegion.run`) reads and writes them.
The item signals are written here but only the nodes' own bindings read
them.
-/

namespace Vertz.Ui.Dom

open Vertz.Lib

/-- The identity of a DOM node. -/
abbrev Node := ℕ

/-- The identity of a disposal scope. -/
abbrev Scope := ℕ

/-- A container, with the children that hydration has still to claim, the
scopes that are live, and how many nodes and scopes there have been. -/
structure Container where
  childNodes : List Node := []
  unclaimed : List Node := []
  live : List Scope := []
  nodes : ℕ := 0
  scopes : ℕ := 0
  deriving DecidableEq, Repr

namespace Container

/-- A container as the server rendered it. -/
def ssr (children : ℕ) : Container :=
  { childNodes := List.range children, unclaimed := List.range children, nodes := children }

def pushScope (container : Container) : Container × Scope :=
  ({ container with
      live := container.live ++ [container.scopes]
      scopes := container.scopes + 1 }, container.scopes)

def runCleanups (container : Container) (scope : Scope) : Container :=
  { container with live := container.live.erase scope }

/-- Render an item or a static child: claim its node or create it. -/
def renderFn (container : Container) : Container × Node :=
  match container.unclaimed with
  | node :: unclaimed => ({ container with unclaimed := unclaimed }, node)
  | [] => ({ container with nodes := container.nodes + 1 }, container.nodes)

def appendChild (container : Container) (node : Node) : Container :=
  { container with childNodes := moveBefore container.childNodes node none }

def removeChild (container : Container) (node : Node) : Container :=
  { container with childNodes := container.childNodes.erase node }

def insertBefore (container : Container) (node : Node) (child : Option Node) : Container :=
  { container with childNodes := moveBefore container.childNodes node child }

end Container

variable {K T : Type} [DecidableEq K]

/-- The variables of one call of `__list`. -/
structure ListRegion (K T : Type) where
  keyFn : T → ℕ → K
  nodeMap : AList fun _ : K => Node := ∅
  scopeMap : AList fun _ : K => Scope := ∅
  itemSignalMap : AList fun _ : K => T := ∅
  startOffset : ℕ := 0

/-- The items with their keys. -/
def keyed (keyFn : T → ℕ → K) (items : List T) : List (K × T) :=
  items.mapIdx fun i item => (keyFn item i, item)

def keysOf (keyFn : T → ℕ → K) (items : List T) : List K := (keyed keyFn items).map Prod.fst

namespace ListRegion

/-- Remove the node of a key that is no longer present, its scope first. -/
def removeKey (state : Container × ListRegion K T) (key : K) (node : Node) :
    Container × ListRegion K T :=
  let (container, list) := state
  match list.scopeMap.lookup key with
  | some scope =>
    ((container.runCleanups scope).removeChild node,
      { list with
        nodeMap := list.nodeMap.erase key
        scopeMap := list.scopeMap.erase key
        itemSignalMap := list.itemSignalMap.erase key })
  | none =>
    (container.removeChild node,
      { list with
        nodeMap := list.nodeMap.erase key
        itemSignalMap := list.itemSignalMap.erase key })

def removeMissing (container : Container) (list : ListRegion K T) (newKeySet : List K) :
    Container × ListRegion K T :=
  list.nodeMap.entries.foldl
    (fun state entry =>
      if entry.1 ∈ newKeySet then state else removeKey state entry.1 entry.2)
    (container, list)

/-- Render an item in a scope of its own. -/
def renderItem (container : Container) (list : ListRegion K T) (key : K) (item : T) :
    (Container × ListRegion K T) × Node :=
  let (container, scope) := container.pushScope
  let (container, node) := container.renderFn
  ((container,
    { list with
      nodeMap := list.nodeMap.insert key node
      scopeMap := list.scopeMap.insert key scope
      itemSignalMap := list.itemSignalMap.insert key item }), node)

/-- The node of an item: a new key is rendered, an existing one gets the
item through its signal. -/
def nodeFor (container : Container) (list : ListRegion K T) (key : K) (item : T) :
    (Container × ListRegion K T) × Node :=
  match list.nodeMap.lookup key with
  | none => renderItem container list key item
  | some node =>
    ((container,
      { list with
        itemSignalMap :=
          match list.itemSignalMap.lookup key with
          | some _ => list.itemSignalMap.insert key item
          | none => list.itemSignalMap }), node)

/-- The nodes of all items, in their order. -/
def desiredNodes (container : Container) (list : ListRegion K T) :
    List (K × T) → (Container × ListRegion K T) × List Node
  | [] => ((container, list), [])
  | (key, item) :: items =>
    let ((container, list), node) := nodeFor container list key item
    let (state, nodes) := desiredNodes container list items
    (state, node :: nodes)

/-- Move the desired nodes to their positions, counted from `startOffset`. -/
def reconcile (container : Container) (startOffset : ℕ) (desiredNodes : List Node) : Container :=
  desiredNodes.zipIdx.foldl
    (fun container (desiredNode, i) =>
      let currentChild := container.childNodes[startOffset + i]?
      if currentChild ≠ some desiredNode then container.insertBefore desiredNode currentChild
      else container)
    container

/-- A run of the effect on new items. -/
def run (container : Container) (list : ListRegion K T) (newItems : List T) :
    Container × ListRegion K T :=
  let items := keyed list.keyFn newItems
  let (container, list) := removeMissing container list (items.map Prod.fst)
  let ((container, list), desiredNodes) := list.desiredNodes container items
  (reconcile container list.startOffset desiredNodes, list)

/-- The first run while hydrating: every item claims its node, and the
children that are no items are taken to come first. -/
def hydrate (container : Container) (list : ListRegion K T) (newItems : List T) :
    Container × ListRegion K T :=
  let (container, list) := (keyed list.keyFn newItems).foldl
    (fun state entry => (renderItem state.1 state.2 entry.1 entry.2).1) (container, list)
  (container,
    { list with startOffset := container.childNodes.length - list.nodeMap.entries.length })

end ListRegion

set_option linter.style.nameCheck false in
/-- A list in a container with the children it has so far. -/
def __list (container : Container) (keyFn : T → ℕ → K) (items : List T) (isHydrationRun : Bool) :
    Container × ListRegion K T :=
  if isHydrationRun then ListRegion.hydrate container { keyFn := keyFn } items
  else
    ListRegion.run container { keyFn := keyFn, startOffset := container.childNodes.length } items

end Vertz.Ui.Dom
