import Vertz.Native.Ci.Graph

/-!
# `Vertz.Native.Ci.Scheduler`: running a task graph

The coordinator settles the nodes whose dependencies all have results: a
node is skipped, or sent to the workers over the ready channel. Workers
take nodes in the order they were sent and send back their results when
they finish, in any order. The coordinator first settles the nodes
without dependencies, then spawns the workers, and then receives one
result at a time and settles the nodes it frees.

`step` is one action of the coordinator or of a worker. What running a
task gives, the answers of callbacks, the glob patterns that match and
the environment come from outside. Cancellation is left out.
-/

namespace Vertz.Native.Ci

open Vertz.Lib

structure ChangeSet where
  files : List String
  deriving DecidableEq, Repr

/-- What a worker makes of a node: an exact hit of the cache, or a run. -/
inductive Outcome where
  | cacheHit
  | ran (status : TaskStatus) (exitCode : Option Int) (durationMs : ℕ)
  deriving DecidableEq, Repr

structure Scheduler where
  graph : TaskGraph
  tasks : Record TaskDef
  changes : Option ChangeSet
  currentBranch : String
  outcome : ℕ → Outcome
  evalCallback : ℕ → TaskResult → Except String Bool
  /-- Whether a pattern matches, if it is a pattern. -/
  globMatches : String → String → Option Bool
  envVar : String → Option String

namespace Scheduler

/-! ### Conditions -/

def anyMatches (s : Scheduler) (patterns names : List String) : Bool :=
  patterns.any (fun pattern => names.any (fun name => (s.globMatches pattern name).getD false))

mutual

def evaluateCondition (s : Scheduler) (changes : ChangeSet) : Condition → Bool
  | .changed patterns => s.anyMatches patterns changes.files
  | .branch names => s.anyMatches names [s.currentBranch]
  | .env name value =>
    match s.envVar name, value with
    | none, _ => false
    | some _, none => true
    | some actual, some expected => decide (actual = expected)
  | .all conditions => s.evaluateAll changes conditions
  | .any conditions => s.evaluateAny changes conditions

def evaluateAll (s : Scheduler) (changes : ChangeSet) : List Condition → Bool
  | [] => true
  | cond :: conditions =>
    s.evaluateCondition changes cond && s.evaluateAll changes conditions

def evaluateAny (s : Scheduler) (changes : ChangeSet) : List Condition → Bool
  | [] => false
  | cond :: conditions =>
    s.evaluateCondition changes cond || s.evaluateAny changes conditions

end

/-! ### Results -/

def nodeAt (s : Scheduler) (nodeIdx : ℕ) : TaskNode := (s.graph.nodes[nodeIdx]?).getD ⟨"", none⟩

def skippedResult (s : Scheduler) (nodeIdx : ℕ) : TaskResult where
  status := .skipped
  exitCode := none
  durationMs := 0
  package := (s.nodeAt nodeIdx).package
  task := (s.nodeAt nodeIdx).taskName
  cached := false

/-- The result a worker sends for a node. -/
def workerResult (s : Scheduler) (nodeIdx : ℕ) : TaskResult :=
  let node := s.nodeAt nodeIdx
  match s.tasks.get? node.taskName with
  | none => ⟨.failed, none, 0, node.package, node.taskName, false⟩
  | some _ =>
    match s.outcome nodeIdx with
    | .cacheHit => ⟨.success, some 0, 0, node.package, node.taskName, true⟩
    | .ran status exitCode durationMs =>
      ⟨status, exitCode, durationMs, node.package, node.taskName, false⟩

/-- An edge keeps its dependent from running. A callback that fails does. -/
def blocks (s : Scheduler) (nodeResults : ℕ → Option TaskResult) (edge : ℕ × EdgeType) : Bool :=
  match nodeResults edge.1 with
  | none => false
  | some depResult =>
    match shouldRunDependent depResult edge.2 with
    | .run => false
    | .skip => true
    | .evalCallback id =>
      match s.evalCallback id depResult with
      | .ok true => false
      | .ok false => true
      | .error _ => true

def shouldSkipNode (s : Scheduler) (nodeResults : ℕ → Option TaskResult) (nodeIdx : ℕ) : Bool :=
  (s.graph.reverseAdj nodeIdx).any (s.blocks nodeResults)

def shouldSkipForCondition (s : Scheduler) (nodeIdx : ℕ) : Bool :=
  match s.tasks.get? (s.nodeAt nodeIdx).taskName with
  | none => false
  | some taskDef =>
    match taskDef.base.cond with
    | none => false
    | some cond => !s.evaluateCondition (s.changes.getD ⟨[]⟩) cond

def skips (s : Scheduler) (nodeResults : ℕ → Option TaskResult) (nodeIdx : ℕ) : Bool :=
  s.shouldSkipNode nodeResults nodeIdx || s.shouldSkipForCondition nodeIdx

/-! ### The run -/

structure State where
  /-- The coordinator settles the first nodes: no worker is there yet. -/
  seeding : Bool
  inDegree : ℕ → ℕ
  nodeResults : ℕ → Option TaskResult
  executed : ℕ
  cached : ℕ
  skipped : ℕ
  failed : ℕ
  remaining : ℕ
  /-- The nodes the coordinator is about to settle. -/
  queue : List ℕ
  /-- The channel to the workers. -/
  ready : List ℕ
  workers : ℕ
  /-- The nodes that workers are on. -/
  running : List ℕ
  /-- The channel from the workers. -/
  results : List (ℕ × TaskResult)

inductive Action where
  /-- Settle the first node of the queue. -/
  | settle
  | spawn
  /-- A worker takes a node. -/
  | take
  /-- The worker on a node finishes it. -/
  | finish (nodeIdx : ℕ)
  /-- The coordinator receives a result. -/
  | receive
  deriving DecidableEq, Repr

def init (s : Scheduler) : State where
  seeding := true
  inDegree := s.graph.inDegree
  nodeResults := fun _ => none
  executed := 0
  cached := 0
  skipped := 0
  failed := 0
  remaining := s.graph.nodeCount
  queue := s.graph.roots
  ready := []
  workers := 0
  running := []
  results := []

def State.setResult (st : State) (nodeIdx : ℕ) (result : TaskResult) : ℕ → Option TaskResult :=
  fun i => if i = nodeIdx then some result else st.nodeResults i

/-- Record a skipped node, and queue the dependents that become free. -/
def skip (s : Scheduler) (st : State) (nodeIdx : ℕ) (rest : List ℕ) : State :=
  let freed := Countdown.release st.inDegree (s.graph.successors nodeIdx)
  { st with
    inDegree := freed.1
    nodeResults := st.setResult nodeIdx (s.skippedResult nodeIdx)
    skipped := st.skipped + 1
    remaining := st.remaining - 1
    queue := rest ++ freed.2 }

def isExecuted (result : TaskResult) : Bool :=
  !result.cached && decide (result.status ≠ .skipped)

def isSkipped (result : TaskResult) : Bool :=
  !result.cached && decide (result.status = .skipped)

def isFailed (result : TaskResult) : Bool :=
  !result.cached && decide (result.status = .failed)

/-- Record a worker's result, and queue the dependents that become free. -/
def record (s : Scheduler) (st : State) (nodeIdx : ℕ) (result : TaskResult)
    (rest : List (ℕ × TaskResult)) : State :=
  let freed := Countdown.release st.inDegree (s.graph.successors nodeIdx)
  { st with
    inDegree := freed.1
    nodeResults := st.setResult nodeIdx result
    cached := st.cached + (if result.cached then 1 else 0)
    executed := st.executed + (if isExecuted result then 1 else 0)
    skipped := st.skipped + (if isSkipped result then 1 else 0)
    failed := st.failed + (if isFailed result then 1 else 0)
    remaining := st.remaining - 1
    queue := freed.2
    results := rest }

def step (s : Scheduler) (concurrency : ℕ) (st : State) : Action → Option State
  | .settle =>
    match st.queue with
    | [] => none
    | nodeIdx :: rest =>
      if s.skips st.nodeResults nodeIdx then
        some (s.skip st nodeIdx rest)
      else
        some { st with queue := rest, ready := st.ready ++ [nodeIdx] }
  | .spawn =>
    if st.seeding = true ∧ st.queue = [] then
      some { st with seeding := false, workers := min concurrency s.graph.nodeCount }
    else
      none
  | .take =>
    match st.ready with
    | [] => none
    | nodeIdx :: rest =>
      if st.running.length < st.workers then
        some { st with ready := rest, running := nodeIdx :: st.running }
      else
        none
  | .finish nodeIdx =>
    if nodeIdx ∈ st.running then
      some { st with
        running := st.running.erase nodeIdx
        results := st.results ++ [(nodeIdx, s.workerResult nodeIdx)] }
    else
      none
  | .receive =>
    match st.results with
    | [] => none
    | (nodeIdx, result) :: rest =>
      if st.seeding = false ∧ st.queue = [] ∧ 0 < st.remaining then
        some (s.record st nodeIdx result rest)
      else
        none

/-- The coordinator has left its loop. -/
def State.Done (st : State) : Prop := st.seeding = false ∧ st.queue = [] ∧ st.remaining = 0

structure SchedulerResult where
  results : Record TaskResult
  executedCount : ℕ
  cachedCount : ℕ
  skippedCount : ℕ
  failedCount : ℕ

/-- The results by label, a later node of a label in the place of an
earlier one. -/
def collect (s : Scheduler) (st : State) : SchedulerResult where
  results := .ofList ((List.range s.graph.nodeCount).filterMap (fun nodeIdx =>
    (st.nodeResults nodeIdx).map (fun result => ((s.nodeAt nodeIdx).label, result))))
  executedCount := st.executed
  cachedCount := st.cached
  skippedCount := st.skipped
  failedCount := st.failed

end Scheduler

end Vertz.Native.Ci
