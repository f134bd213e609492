import Vertz.Lib.Run
import Vertz.Native.Ci.Scheduler
import Vertz.Native.Ci.Cache

/-!
# `Vertz.Spec.TaskGraph`: task graphs and their runs

## What a complete task graph is

The declared dependencies are read from the configuration alone: a task
of a node names tasks, and each name stands for nodes in scope. The graph
is to contain every node that is reached this way from the tasks of the
workflow, with an edge for each dependency, and building it is to fail
when these edges run in a cycle. A name that stands for no task, and a
topological dependency of a root task, are rejected beforehand.

The builder looks at the dependencies of the tasks of the workflow only.
`Followed` says when that is all there is to look at.
-/

namespace Vertz.Spec

open Vertz.Lib Vertz.Native.Ci

structure CiRun where
  workflow : WorkflowConfig
  tasks : Record TaskDef
  workspace : ResolvedWorkspace
  filterPackages : Option NameSet

namespace CiRun

def build (c : CiRun) : Except BuildError TaskGraph :=
  TaskGraph.build c.workflow c.tasks c.workspace c.filterPackages

def activePackages (c : CiRun) : NameSet := c.filterPackages.getD c.workspace.packageNames

/-! ### The declared dependencies -/

/-- The node's task exists, and runs there. -/
def InScope (c : CiRun) (node : TaskNode) : Prop :=
  ∃ taskDef, c.tasks.get? node.taskName = some taskDef ∧
    match taskDef.base.scope with
    | .root => node.package = none
    | .package => ∃ pkgName ∈ c.activePackages.names, node.package = some pkgName

/-- The dependency stands for a node: `^task` for the task in the
packages the node's package depends on, `task` for the task at the root
or in the same package, and in every package when the node is at the
root. -/
def StandsFor (c : CiRun) (node : TaskNode) (dep : Dep) (depNode : TaskNode) : Prop :=
  (parseDepName dep).1 = depNode.taskName ∧
    if (parseDepName dep).2 then
      ∃ pkgName pkg depPkgName, node.package = some pkgName ∧
        c.workspace.packages.get? pkgName = some pkg ∧ depPkgName ∈ pkg.internalDeps ∧
        depNode.package = some depPkgName
    else
      node.package = none ∨ depNode.package = none ∨ depNode.package = node.package

def Declares (c : CiRun) (node : TaskNode) (dep : Dep) (depNode : TaskNode) : Prop :=
  (∃ taskDef, c.tasks.get? node.taskName = some taskDef ∧ dep ∈ taskDef.base.deps) ∧
    c.StandsFor node dep depNode ∧ c.InScope depNode

/-- The nodes that the workflow needs. -/
inductive Wanted (c : CiRun) : TaskNode → Prop where
  | run {node : TaskNode} (hrun : node.taskName ∈ c.workflow.run) (hscope : c.InScope node) :
      Wanted c node
  | dep {node depNode : TaskNode} {dep : Dep} (hnode : Wanted c node)
      (hdep : c.Declares node dep depNode) : Wanted c depNode

/-- A needed node depends on another. -/
def DependsOn (c : CiRun) (depNode node : TaskNode) : Prop :=
  c.Wanted node ∧ ∃ dep, c.Declares node dep depNode

def Circular (c : CiRun) : Prop := ∃ node, Relation.TransGen c.DependsOn node node

/-! ### What the graph is to be -/

def ReferencesResolve (c : CiRun) : Prop :=
  ∀ taskName ∈ c.workflow.run, ∃ taskDef, c.tasks.get? taskName = some taskDef ∧
    ∀ dep ∈ taskDef.base.deps, (c.tasks.get? (parseDepName dep).1).isSome ∧
      ¬ ((parseDepName dep).2 ∧ taskDef.base.scope = .root)

/-- Every needed node is there, and every node has an edge from each of
its declared dependencies. -/
structure Complete (c : CiRun) (graph : TaskGraph) : Prop where
  wanted : ∀ node, c.Wanted node → node ∈ graph.nodes
  edges : ∀ i node, graph.nodes[i]? = some node → ∀ dep depNode, c.Declares node dep depNode →
    ∃ j, graph.nodes[j]? = some depNode ∧ (j, i, depEdgeType dep) ∈ graph.edges

def BuildsCompleteGraph (c : CiRun) : Prop :=
  match c.build with
  | .ok graph => c.Complete graph ∧ ¬ c.Circular
  | .error _ => c.Circular ∨ ¬ c.ReferencesResolve

/-! ### When it is -/

/-- The packages that the edges of a dependency run over are packages of
the workspace. -/
def PackagesKnown (c : CiRun) (node depNode : TaskNode) : Prop :=
  (∀ pkgName, node.package = some pkgName → pkgName ∈ c.workspace.packages.keys) ∧
    (node.package = none → ∀ pkgName, depNode.package = some pkgName →
      pkgName ∈ c.workspace.packages.keys)

/-- A dependency that the builder follows. -/
def Follows (c : CiRun) (depNode node : TaskNode) : Prop :=
  c.InScope node ∧ node.taskName ∈ c.workflow.run ∧ c.PackagesKnown node depNode ∧
    ∃ dep, c.Declares node dep depNode

/-- A node of a task of the workflow, or of a task that one depends on
directly. -/
def Direct (c : CiRun) (node : TaskNode) : Prop :=
  c.InScope node ∧ (node.taskName ∈ c.workflow.run ∨
    ∃ taskName ∈ c.workflow.run, ∃ taskDef, c.tasks.get? taskName = some taskDef ∧
      ∃ dep ∈ taskDef.base.deps, (parseDepName dep).1 = node.taskName)

/-- A direct node with dependencies in scope is of a task that the
workflow lists, once, and the packages are known. -/
def AllFollowed (c : CiRun) : Prop :=
  ∀ node dep depNode, c.Direct node → c.Declares node dep depNode →
    c.workflow.run.count node.taskName = 1 ∧ c.PackagesKnown node depNode

def Followed (c : CiRun) : Prop :=
  c.ReferencesResolve → (∃ node, Relation.TransGen c.Follows node node) ∨ c.AllFollowed

end CiRun

end Vertz.Spec

/-!
## What a run of the scheduler is to give

A run is any sequence of actions that are possible one after the other,
so the workers finish in any order. What running a task gives and what
conditions and callbacks answer is fixed by the scheduler.
-/

namespace Vertz.Spec

open Vertz.Lib Vertz.Native.Ci

namespace SchedulerRun

variable (s : Scheduler) (concurrency : ℕ)

def Step (st st' : Scheduler.State) : Prop := ∃ action, s.step concurrency st action = some st'

def Reached (st : Scheduler.State) : Prop := Relation.ReflTransGen (Step s concurrency) s.init st

/-- Every node has a result in what the scheduler returns, and there is
no other. -/
def OneResultEach (st : Scheduler.State) : Prop :=
  (s.collect st).results.entries.length = s.graph.nodeCount ∧
    ∀ nodeIdx < s.graph.nodeCount, ∃ result, st.nodeResults nodeIdx = some result ∧
      (s.collect st).results.get? (s.nodeAt nodeIdx).label = some result

structure SchedulesCorrectly (s : Scheduler) : Prop where
  /-- No run goes on for ever. -/
  bounded : ∀ concurrency, 1 ≤ concurrency → ∃ bound, ∀ k st,
    Steps (Step s concurrency) k s.init st → k ≤ bound
  /-- A run that cannot go on has finished. -/
  finishes : ∀ concurrency, 1 ≤ concurrency → ∀ st, Reached s concurrency st →
    (∀ st', ¬ Step s concurrency st st') → st.Done
  results : ∀ concurrency, 1 ≤ concurrency → ∀ st, Reached s concurrency st → st.Done →
    OneResultEach s st
  /-- A result is not replaced by another. -/
  kept : ∀ concurrency, 1 ≤ concurrency → ∀ st st' nodeIdx result, Reached s concurrency st →
    Step s concurrency st st' → st.nodeResults nodeIdx = some result →
    st'.nodeResults nodeIdx = some result
  /-- A worker takes a node after all its dependencies have results. -/
  starts : ∀ concurrency, 1 ≤ concurrency → ∀ st st' nodeIdx, Reached s concurrency st →
    s.step concurrency st .take = some st' → st.ready.head? = some nodeIdx →
    ∀ edge ∈ s.graph.reverseAdj nodeIdx, (st.nodeResults edge.1).isSome
  /-- The results depend neither on the concurrency nor on the order. -/
  same : ∀ concurrency concurrency', 1 ≤ concurrency → 1 ≤ concurrency' → ∀ st st',
    Reached s concurrency st → st.Done → Reached s concurrency' st' → st'.Done →
    ∀ nodeIdx < s.graph.nodeCount, st.nodeResults nodeIdx = st'.nodeResults nodeIdx
  counts : ∀ concurrency, 1 ≤ concurrency → ∀ st, Reached s concurrency st → st.Done →
    (s.collect st).executedCount + (s.collect st).cachedCount + (s.collect st).skippedCount =
      s.graph.nodeCount

end SchedulerRun

end Vertz.Spec

/-!
## Whose entries a lookup returns

The scheduler stores and looks up entries for tasks, each in a package or
at the root, on a platform. An entry carries whom it was stored for. A
cache that is used for some owners never crosses them when every lookup
for one returns an entry of its own, whatever was stored and looked up
before.
-/

namespace Vertz.Spec

open Vertz.Native.Ci

/-- Whom an entry is stored for. -/
structure CacheOwner where
  task : String
  package : Option String
  platform : String
  deriving DecidableEq

/-- The hash of a task's inputs: the first 16 hexadecimal digits. -/
structure InputHash where
  text : String
  length : text.toList.length = 16
  hex : ∀ c ∈ text.toList, c ∈ "0123456789abcdef".toList

/-- What is stored, and for whom. -/
structure StoredEntry where
  owner : CacheOwner
  data : List UInt8

namespace CacheOwner

def key (owner : CacheOwner) (hash : InputHash) : String :=
  cacheKey owner.task owner.package owner.platform hash.text

def restoreKeys (owner : CacheOwner) : List String :=
  Native.Ci.restoreKeys owner.task owner.package owner.platform

/-- The key without the hash and the dash before it. -/
def stem (owner : CacheOwner) : List Char :=
  ("pipe-v1-" ++ owner.platform ++ "-" ++ owner.task ++ "-" ++
    owner.package.getD "root").toList

end CacheOwner

/-- What the scheduler does with the cache, at a time. -/
inductive CacheOp where
  | put (now : ℕ) (owner : CacheOwner) (hash : InputHash) (data : List UInt8)
  | get (now : ℕ) (owner : CacheOwner) (hash : InputHash)

def CacheOp.owner : CacheOp → CacheOwner
  | put _ owner _ _ => owner
  | get _ owner _ => owner

namespace CacheRun

def lookup (now : ℕ) (cache : LocalCache StoredEntry) (owner : CacheOwner) (hash : InputHash) :
    LocalCache StoredEntry × Option (String × StoredEntry) :=
  cache.getSync now (owner.key hash) owner.restoreKeys

def apply (maxSize : ℕ) (cache : LocalCache StoredEntry) : CacheOp → LocalCache StoredEntry
  | .put now owner hash data =>
    cache.putSync maxSize now (owner.key hash) ⟨owner, data⟩ data.length
  | .get now owner hash => (lookup now cache owner hash).1

def run (maxSize : ℕ) (ops : List CacheOp) : LocalCache StoredEntry :=
  ops.foldl (apply maxSize) .empty

/-- No lookup for an owner in use returns an entry of another one. -/
def NeverCrosses (used : CacheOwner → Prop) : Prop :=
  ∀ (maxSize : ℕ) (ops : List CacheOp), (∀ op ∈ ops, used op.owner) →
    ∀ (now : ℕ) (owner : CacheOwner) (hash : InputHash), used owner →
      ∀ key entry, (lookup now (run maxSize ops) owner hash).2 = some (key, entry) →
        entry.owner = owner

/-- The entries of `b` have the file names of `a`, or keys that start with
its restore key. -/
def Confused (a b : CacheOwner) : Prop :=
  safeKey a.stem = safeKey b.stem ∨ (a.stem ++ ['-']) <+: (b.stem ++ ['-'])

/-- No two owners in use are confused. -/
def OwnersApart (used : CacheOwner → Prop) : Prop :=
  ∀ a b, used a → used b → Confused a b → a = b

end CacheRun

end Vertz.Spec
