import Mathlib.Data.String.Basic
import Vertz.Lib.SortedMap

/-!
# `Vertz.Native.Pm.Workspace`: cycles between workspace packages

`validate_workspace_graph` searches the production dependencies between
the packages of a workspace, depth first, for a cycle. Dev dependencies
are not looked at.
-/

namespace Vertz.Native.Pm

open Vertz.Lib

/-- A package, with the names in its `dependencies` in their order. -/
structure WorkspacePackage where
  name : String
  dependencies : List String
  devDependencies : List String
  deriving DecidableEq, Repr

/-- The production dependencies that are packages of the workspace. -/
def adjacency (workspaces : List WorkspacePackage) : SortedMap String (List String) :=
  .ofEntries (workspaces.map fun ws =>
    (ws.name, ws.dependencies.filter fun dep => dep ∈ workspaces.map WorkspacePackage.name))

structure DfsState where
  visited : List String
  inStack : List String
  path : List String

/-- What a part of the search comes to: a cycle, or the state after it;
nothing without fuel. -/
abbrev DfsResult := Option (Except (List String) DfsState)

/-- The path from `dep` on, and `dep` again. -/
def cycleFrom (dep : String) (path : List String) : List String :=
  path.dropWhile (· ≠ dep) ++ [dep]

/-- The loop over the dependencies of a node. -/
def dfsDeps (dfs : String → DfsState → DfsResult) : List String → DfsState → DfsResult
  | [], state => some (.ok state)
  | dep :: deps, state =>
    if dep ∉ state.visited then
      match dfs dep state with
      | some (.ok state) => dfsDeps dfs deps state
      | result => result
    else if dep ∈ state.inStack then some (.error (cycleFrom dep state.path))
    else dfsDeps dfs deps state

def dfsCycle (adj : SortedMap String (List String)) : ℕ → String → DfsState → DfsResult
  | 0, _, _ => none
  | fuel + 1, node, state =>
    let entered : DfsState :=
      { visited := node :: state.visited, inStack := node :: state.inStack,
        path := state.path ++ [node] }
    match dfsDeps (dfsCycle adj fuel) ((adj.get? node).getD []) entered with
    | some (.ok state) =>
      some (.ok { state with
        inStack := state.inStack.filter (· ≠ node), path := state.path.dropLast })
    | result => result

/-- The loop over the packages. -/
def dfsRoots (dfs : String → DfsState → DfsResult) : List String → DfsState → DfsResult
  | [], state => some (.ok state)
  | name :: names, state =>
    if name ∉ state.visited then
      match dfs name state with
      | some (.ok state) => dfsRoots dfs names state
      | result => result
    else dfsRoots dfs names state

def cycleMessage (cycle : List String) : String :=
  "error: workspace dependency cycle detected\n  " ++ " → ".intercalate cycle ++
    "\n  Remove the circular dependency from one of the packages' \"dependencies\" field.\n" ++
    "  (Circular devDependencies are allowed.)"

/-- No path is longer than there are packages. -/
def validateWorkspaceGraph (workspaces : List WorkspacePackage) : Option (Except String Unit) :=
  let adj := adjacency workspaces
  match dfsRoots (dfsCycle adj (workspaces.length + 1)) adj.keys ⟨[], [], []⟩ with
  | none => none
  | some (.error cycle) => some (.error (cycleMessage cycle))
  | some (.ok _) => some (.ok ())

end Vertz.Native.Pm
