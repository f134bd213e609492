import Vertz.Lib.Record
import Vertz.Lib.Countdown

/-!
# `Vertz.Native.Ci.Graph`: tasks, workflows and workspaces of the CI runner

What the task graph and the scheduler read of a configuration. A task
has its dependencies, an optional condition and a scope: it runs once
for each package, or once at the root.
-/

namespace Vertz.Native.Ci

open Vertz.Lib

inductive TaskScope where
  | package
  | root
  deriving DecidableEq, Repr

inductive DepCondition where
  | success
  | always
  | failure
  /-- Answered by the configuration's callback of that id. -/
  | callback (id : ℕ)
  deriving DecidableEq, Repr

structure DepEdge where
  task : String
  on : DepCondition
  deriving DecidableEq, Repr

inductive Dep where
  /-- A bare name: runs after a skipped dependency, not after a failed one. -/
  | simple (task : String)
  | edge (edge : DepEdge)
  deriving DecidableEq, Repr

inductive Condition where
  | changed (patterns : List String)
  | branch (names : List String)
  | env (name : String) (value : Option String)
  | all (conditions : List Condition)
  | any (conditions : List Condition)

structure TaskBase where
  deps : List Dep
  cond : Option Condition
  scope : TaskScope

inductive TaskDef where
  | command (command : String) (base : TaskBase)
  | steps (steps : List String) (base : TaskBase)

def TaskDef.base : TaskDef → TaskBase
  | command _ base => base
  | steps _ base => base

structure WorkflowConfig where
  run : List String
  deriving DecidableEq, Repr

structure WorkspacePackage where
  /-- The other packages of the workspace that this one depends on. -/
  internalDeps : List String
  deriving DecidableEq, Repr

structure ResolvedWorkspace where
  packages : Record WorkspacePackage

/-- A set of names, in the order in which it is iterated. -/
structure NameSet where
  names : List String
  nodup : names.Nodup

def ResolvedWorkspace.packageNames (workspace : ResolvedWorkspace) : NameSet :=
  ⟨workspace.packages.keys, workspace.packages.nodup⟩

inductive TaskStatus where
  | success
  | failed
  | skipped
  deriving DecidableEq, Repr

structure TaskResult where
  status : TaskStatus
  exitCode : Option Int
  durationMs : ℕ
  package : Option String
  task : String
  cached : Bool
  deriving DecidableEq, Repr

end Vertz.Native.Ci

/-!
## The task graph of a workflow

A node is a task in a package, or a task at the root. `TaskGraph.build`
creates the nodes of the tasks of the workflow, then those of the tasks
they depend on, and then the edges from the declared dependencies. A
graph with a cycle is rejected with the cycle in the message.

A graph keeps its edges in one list. The adjacency lists of the source
are read off it, since each edge is pushed to both in that order.
-/

namespace Vertz.Native.Ci

open Vertz.Lib

structure TaskNode where
  taskName : String
  package : Option String
  deriving DecidableEq, Repr

def TaskNode.label (node : TaskNode) : String :=
  match node.package with
  | some pkg => node.taskName ++ " " ++ pkg
  | none => node.taskName

inductive EdgeType where
  /-- A bare name: a skipped dependency lets the dependent run. -/
  | default
  | success
  | always
  | failure
  | callback (id : ℕ)
  deriving DecidableEq, Repr

inductive BuildError where
  | unknownRunTask (taskName : String) (available : List String)
  | unknownDepTask (taskName depTaskName : String) (available : List String)
  | rootTopological (taskName depTaskName : String)
  | circular (cycle : List String)
  deriving DecidableEq, Repr

/-- An edge `(source, target, type)`: the source completes before the
target runs. -/
abbrev Edge := ℕ × ℕ × EdgeType

structure TaskGraph where
  nodes : List TaskNode
  edges : List Edge
  nodeIndex : TaskNode → Option ℕ
  bounded : ∀ e ∈ edges, e.1 < nodes.length ∧ e.2.1 < nodes.length

namespace TaskGraph

def nodeCount (graph : TaskGraph) : ℕ := graph.nodes.length

/-- The dependents of a node, in the order of the edges. -/
def adjacency (graph : TaskGraph) (node : ℕ) : List (ℕ × EdgeType) :=
  graph.edges.filterMap (fun e => if e.1 = node then some e.2 else none)

/-- The dependencies of a node, in the order of the edges. -/
def reverseAdj (graph : TaskGraph) (node : ℕ) : List (ℕ × EdgeType) :=
  graph.edges.filterMap (fun e => if e.2.1 = node then some (e.1, e.2.2) else none)

def successors (graph : TaskGraph) (node : ℕ) : List ℕ := (graph.adjacency node).map Prod.fst

/-- One for each time the node stands in an adjacency list. -/
def inDegree (graph : TaskGraph) : ℕ → ℕ :=
  Countdown.arrivals graph.successors (List.range graph.nodeCount)

/-- The nodes without dependencies, in ascending order. -/
def roots (graph : TaskGraph) : List ℕ :=
  (List.range graph.nodeCount).filter (fun v => decide (graph.inDegree v = 0))

/-- Follow the edges depth first until a node of the path comes again:
whether one did, the nodes visited and the path, which is cut to the
cycle and closed. Every call visits a node, so one unit of fuel for each
node and one for the last check are enough. -/
def dfsFindCycle (graph : TaskGraph) : ℕ → ℕ → List ℕ × List ℕ → Bool × List ℕ × List ℕ
  | 0, _, state => (false, state)
  | fuel + 1, node, (visited, stack) =>
    if node ∈ stack then
      (true, visited, stack.drop (stack.idxOf node) ++ [node])
    else if node ∈ visited then
      (false, visited, stack)
    else
      let result := (graph.successors node).foldl
        (fun acc child => if acc.1 then acc else graph.dfsFindCycle fuel child acc.2)
        (false, node :: visited, stack ++ [node])
      if result.1 then result else (false, result.2.1, result.2.2.dropLast)

def labelAt (graph : TaskGraph) (node : ℕ) : String :=
  ((graph.nodes[node]?).map TaskNode.label).getD ""

def findCyclePath (graph : TaskGraph) (inDegree : ℕ → ℕ) : List String :=
  let start := ((List.range graph.nodeCount).find? (fun v => decide (0 < inDegree v))).getD 0
  let result := graph.dfsFindCycle (graph.nodeCount + 1) start ([], [])
  if result.1 then
    result.2.2.map graph.labelAt
  else
    ["(cycle detected but path could not be determined)"]

/-- The nodes with dependencies before dependents. The loop pops each
node once, so fuel for every node is enough. -/
def topologicalOrder (graph : TaskGraph) : Except BuildError (List ℕ) :=
  let result := Countdown.drain graph.successors graph.nodeCount graph.inDegree graph.roots
  if result.1.length = graph.nodeCount then
    .ok result.1
  else
    .error (.circular (graph.findCyclePath result.2))

end TaskGraph

/-! ### Dependency references -/

def stripCaret (s : String) : String × Bool :=
  match s.toList with
  | '^' :: rest => (String.ofList rest, true)
  | _ => (s, false)

/-- The task a dependency names, and whether it is topological (`^task`). -/
def parseDepName : Dep → String × Bool
  | .simple s => stripCaret s
  | .edge edge => stripCaret edge.task

def depEdgeType : Dep → EdgeType
  | .simple _ => .default
  | .edge edge =>
    match edge.on with
    | .success => .success
    | .always => .always
    | .failure => .failure
    | .callback id => .callback id

/-! ### Nodes -/

/-- The nodes created so far, and where the last one of each name is. -/
structure NodeTable where
  nodes : List TaskNode
  index : TaskNode → Option ℕ
  indexed : ∀ node i, index node = some i → nodes[i]? = some node

namespace NodeTable

def empty : NodeTable := ⟨[], fun _ => none, fun _ _ h => by cases h⟩

theorem indexed_push {nodes : List TaskNode} {index : TaskNode → Option ℕ}
    (h : ∀ node i, index node = some i → nodes[i]? = some node) (new : TaskNode) :
    ∀ node i, (if node = new then some nodes.length else index node) = some i →
      (nodes ++ [new])[i]? = some node := by
  intro node i hi
  by_cases heq : node = new
  · rw [if_pos heq] at hi
    cases hi
    simp [heq]
  · rw [if_neg heq] at hi
    have hold := h node i hi
    have hlt : i < nodes.length := (List.getElem?_eq_some_iff.mp hold).1
    rw [List.getElem?_append_left hlt]
    exact hold

def push (table : NodeTable) (new : TaskNode) : NodeTable where
  nodes := table.nodes ++ [new]
  index := fun node => if node = new then some table.nodes.length else table.index node
  indexed := indexed_push table.indexed new

/-- Create the node unless there is one of that name. -/
def pushVacant (table : NodeTable) (new : TaskNode) : NodeTable :=
  match table.index new with
  | some _ => table
  | none => table.push new

end NodeTable

/-- The nodes of a task: one at the root, or one in each package. -/
def scopeNodes (taskName : String) (scope : TaskScope) (activePackages : NameSet) :
    List TaskNode :=
  match scope with
  | .root => [⟨taskName, none⟩]
  | .package => activePackages.names.map (fun pkgName => ⟨taskName, some pkgName⟩)

def createRunNodes (tasks : Record TaskDef) (activePackages : NameSet) :
    List String → NodeTable → Except BuildError NodeTable
  | [], table => .ok table
  | taskName :: run, table =>
    match tasks.get? taskName with
    | none => .error (.unknownRunTask taskName tasks.keys)
    | some taskDef =>
      createRunNodes tasks activePackages run
        ((scopeNodes taskName taskDef.base.scope activePackages).foldl NodeTable.push table)

/-- The tasks that a task of the workflow depends on and that are not in
the workflow themselves. -/
def depTasksToAdd (workflow : WorkflowConfig) (tasks : Record TaskDef) : List String :=
  workflow.run.flatMap (fun taskName =>
    match tasks.get? taskName with
    | none => []
    | some taskDef =>
      (taskDef.base.deps.map (fun dep => (parseDepName dep).1)).filter
        (fun depTask => decide (depTask ∉ workflow.run)))

def createDepNodes (tasks : Record TaskDef) (activePackages : NameSet) (depTasks : List String)
    (table : NodeTable) : NodeTable :=
  depTasks.foldl (fun table depTask =>
    match tasks.get? depTask with
    | none => table
    | some taskDef =>
      (scopeNodes depTask taskDef.base.scope activePackages).foldl NodeTable.pushVacant table)
    table

/-! ### Edges -/

/-- A dependency is checked before its edges are created, in the same
loop. -/
def checkDep (tasks : Record TaskDef) (taskName : String) (taskDef : TaskDef) (dep : Dep) :
    Except BuildError Unit :=
  let (depTaskName, isTopological) := parseDepName dep
  if tasks.get? depTaskName |>.isNone then
    .error (.unknownDepTask taskName depTaskName tasks.keys)
  else if isTopological ∧ taskDef.base.scope = .root then
    .error (.rootTopological taskName depTaskName)
  else
    .ok ()

def checkDeps (tasks : Record TaskDef) (run : List String) : Except BuildError Unit :=
  run.forM (fun taskName =>
    match tasks.get? taskName with
    | none => .ok ()
    | some taskDef => taskDef.base.deps.forM (checkDep tasks taskName taskDef))

/-- The pairs `(dependency, dependent)` that a dependency stands for. -/
def depPairs (tasks : Record TaskDef) (workspace : ResolvedWorkspace) (taskName : String)
    (taskDef : TaskDef) (dep : Dep) : List (TaskNode × TaskNode) :=
  let (depTaskName, isTopological) := parseDepName dep
  let pkgNames := workspace.packages.keys
  match tasks.get? depTaskName with
  | none => []
  | some depDef =>
    match taskDef.base.scope with
    | .root =>
      match depDef.base.scope with
      | .root => [(⟨depTaskName, none⟩, ⟨taskName, none⟩)]
      | .package => pkgNames.map (fun pkgName => (⟨depTaskName, some pkgName⟩, ⟨taskName, none⟩))
    | .package =>
      if isTopological then
        pkgNames.flatMap (fun pkgName =>
          match workspace.packages.get? pkgName with
          | none => []
          | some pkg =>
            pkg.internalDeps.map (fun depPkgName =>
              (⟨depTaskName, some depPkgName⟩, ⟨taskName, some pkgName⟩)))
      else
        match depDef.base.scope with
        | .package =>
          pkgNames.map (fun pkgName =>
            (⟨depTaskName, some pkgName⟩, ⟨taskName, some pkgName⟩))
        | .root => pkgNames.map (fun pkgName => (⟨depTaskName, none⟩, ⟨taskName, some pkgName⟩))

/-- The edge of a pair, when both nodes exist. -/
def link (index : TaskNode → Option ℕ) (edgeType : EdgeType) (pair : TaskNode × TaskNode) :
    List Edge :=
  match index pair.1, index pair.2 with
  | some i, some j => [(i, j, edgeType)]
  | _, _ => []

def createEdges (tasks : Record TaskDef) (workspace : ResolvedWorkspace)
    (index : TaskNode → Option ℕ) (run : List String) : List Edge :=
  run.flatMap (fun taskName =>
    match tasks.get? taskName with
    | none => []
    | some taskDef =>
      taskDef.base.deps.flatMap (fun dep =>
        (depPairs tasks workspace taskName taskDef dep).flatMap (link index (depEdgeType dep))))

theorem mem_link {index : TaskNode → Option ℕ} {edgeType : EdgeType} {pair : TaskNode × TaskNode}
    {e : Edge} : e ∈ link index edgeType pair ↔
      index pair.1 = some e.1 ∧ index pair.2 = some e.2.1 ∧ e.2.2 = edgeType := by
  obtain ⟨i, j, t⟩ := e
  cases h₁ : index pair.1 <;> cases h₂ : index pair.2 <;>
    simp [link, h₁, h₂, Prod.ext_iff, eq_comm]

theorem mem_createEdges {tasks : Record TaskDef} {workspace : ResolvedWorkspace}
    {index : TaskNode → Option ℕ} {run : List String} {e : Edge} :
    e ∈ createEdges tasks workspace index run ↔
      ∃ taskName ∈ run, ∃ taskDef, tasks.get? taskName = some taskDef ∧
        ∃ dep ∈ taskDef.base.deps, ∃ pair ∈ depPairs tasks workspace taskName taskDef dep,
          index pair.1 = some e.1 ∧ index pair.2 = some e.2.1 ∧ e.2.2 = depEdgeType dep := by
  simp only [createEdges, List.mem_flatMap]
  constructor
  · intro h
    obtain ⟨taskName, hrun, h⟩ := h
    cases hdef : tasks.get? taskName with
    | none => simp [hdef] at h
    | some taskDef =>
      simp only [hdef, List.mem_flatMap] at h
      obtain ⟨dep, hdep, pair, hpair, he⟩ := h
      exact ⟨taskName, hrun, taskDef, hdef, dep, hdep, pair, hpair, mem_link.mp he⟩
  · intro h
    obtain ⟨taskName, hrun, taskDef, hdef, dep, hdep, pair, hpair, he⟩ := h
    refine ⟨taskName, hrun, ?_⟩
    simp only [hdef, List.mem_flatMap]
    exact ⟨dep, hdep, pair, hpair, mem_link.mpr he⟩

theorem createEdges_bounded (tasks : Record TaskDef) (workspace : ResolvedWorkspace)
    (table : NodeTable) (run : List String) :
    ∀ e ∈ createEdges tasks workspace table.index run,
      e.1 < table.nodes.length ∧ e.2.1 < table.nodes.length := by
  intro e he
  obtain ⟨_, _, _, _, _, _, pair, _, hfrom, hto, _⟩ := mem_createEdges.mp he
  exact ⟨(List.getElem?_eq_some_iff.mp (table.indexed _ _ hfrom)).1,
    (List.getElem?_eq_some_iff.mp (table.indexed _ _ hto)).1⟩

/-! ### The graph of a workflow -/

def createNodes (workflow : WorkflowConfig) (tasks : Record TaskDef) (activePackages : NameSet) :
    Except BuildError NodeTable :=
  (createRunNodes tasks activePackages workflow.run .empty).map
    (createDepNodes tasks activePackages (depTasksToAdd workflow tasks))

def assemble (tasks : Record TaskDef) (workspace : ResolvedWorkspace) (run : List String)
    (table : NodeTable) : TaskGraph where
  nodes := table.nodes
  edges := createEdges tasks workspace table.index run
  nodeIndex := table.index
  bounded := createEdges_bounded tasks workspace table run

/-- `filterPackages` restricts the nodes in packages to those listed;
without it every package of the workspace is included. -/
def TaskGraph.build (workflow : WorkflowConfig) (tasks : Record TaskDef)
    (workspace : ResolvedWorkspace) (filterPackages : Option NameSet) :
    Except BuildError TaskGraph := do
  let activePackages := filterPackages.getD workspace.packageNames
  let table ← createNodes workflow tasks activePackages
  checkDeps tasks workflow.run
  let graph := assemble tasks workspace workflow.run table
  let _ ← graph.topologicalOrder
  return graph

/-! ### Skip propagation -/

inductive DepDecision where
  | run
  | skip
  | evalCallback (id : ℕ)
  deriving DecidableEq, Repr

/-- What a dependency's result says about its dependent. -/
def shouldRunDependent (depResult : TaskResult) : EdgeType → DepDecision
  | .default =>
    match depResult.status with
    | .success => .run
    | .failed => .skip
    | .skipped => .run
  | .success =>
    match depResult.status with
    | .success => .run
    | .failed => .skip
    | .skipped => .skip
  | .always => .run
  | .failure =>
    match depResult.status with
    | .success => .skip
    | .failed => .run
    | .skipped => .skip
  | .callback id => .evalCallback id

end Vertz.Native.Ci
