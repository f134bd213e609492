import Vertz.Agents.Types

/-!
# `Vertz.Agents.Workflow`: running a workflow

The steps of a workflow run one after the other. A step sees the outputs
of the steps before it as `ctx.prev`. A gate suspends the workflow; the
caller resumes after it, with the step results of the suspended run.

An agent is what running it on a message gives. `runSteps` also records
each step that starts, with its context.
-/

namespace Vertz.Agents

open Vertz.Lib

/-- The result of a single step execution. -/
structure StepResult where
  status : LoopStatus
  response : String
  iterations : ℕ
  deriving DecidableEq, Repr

/-- Context available to a step's input callback. -/
structure StepContext where
  input : Js
  /-- Accumulated outputs from all preceding steps, keyed by step name. -/
  prev : Record Js

structure StepDefinition where
  name : String
  agent : Option (String → Except String StepResult)
  input : Option (StepContext → Except String String)
  output : Option (Js → SchemaParse)
  /-- The message of an approval gate. -/
  approval : Option (StepContext → String)

def StepDefinition.isGate (step : StepDefinition) : Bool := step.approval.isSome

structure WorkflowDefinition where
  name : String
  input : Js → SchemaParse
  steps : List StepDefinition
  /-- The builder refuses a second step of a name. -/
  nodup : (steps.map StepDefinition.name).Nodup

inductive WorkflowStatus where
  | complete
  | error
  | pending
  deriving DecidableEq, Repr

inductive WorkflowErrorReason where
  | agentFailed
  | invalidJson
  | schemaMismatch
  deriving DecidableEq, Repr

structure WorkflowResult where
  status : WorkflowStatus
  stepResults : Record StepResult
  failedStep : Option String
  errorReason : Option WorkflowErrorReason
  pendingStep : Option String
  approvalMessage : Option String

structure RunWorkflowOptions where
  input : Js
  /-- Steps up to and including this step are skipped. -/
  resumeAfter : Option String
  /-- Previous step results to restore when resuming. -/
  previousResults : Option (Record StepResult)

/-- A step that started. -/
structure StepStart where
  step : String
  ctx : StepContext

/-- The outcome of the run of a workflow: what started, and the result or
the error thrown. -/
abbrev WorkflowRun := List StepStart × Except String WorkflowResult

def WorkflowResult.complete (stepResults : Record StepResult) : WorkflowResult :=
  ⟨.complete, stepResults, none, none, none, none⟩

def WorkflowResult.failed (stepResults : Record StepResult) (step : String)
    (reason : WorkflowErrorReason) : WorkflowResult :=
  ⟨.error, stepResults, some step, some reason, none, none⟩

def WorkflowResult.pending (stepResults : Record StepResult) (step message : String) :
    WorkflowResult :=
  ⟨.pending, stepResults, none, none, some step, some message⟩

/-! ### One step -/

def StepDefinition.message (step : StepDefinition) (ctx : StepContext) : Except String String :=
  match step.input with
  | some input => input ctx
  | none => .ok ("Execute step \"" ++ step.name ++ "\"")

/-- The agent ran out of iterations but answered something. -/
def StepResult.softComplete (result : StepResult) : Bool :=
  result.status == .maxIterations && decide (0 < result.response.toList.length)

def StepResult.succeeded (result : StepResult) : Bool :=
  result.status == .complete || result.softComplete

/-- The output of a step, by its response. -/
def StepDefinition.stepOutput (jsonParse : String → Option Js) (step : StepDefinition)
    (response : String) : Except WorkflowErrorReason Js :=
  match step.output with
  | none => .ok (.obj [("response", .str response)])
  | some parse =>
    match jsonParse response with
    | none => .error .invalidJson
    | some parsed =>
      match parse parsed with
      | .ok data => .ok data
      | .failed _ => .error .schemaMismatch
      | .threw _ => .error .schemaMismatch

/-! ### All steps -/

section

variable (jsonParse : String → Option Js) (input : Js)

def runSteps : List StepDefinition → Record StepResult → Record Js → WorkflowRun
  | [], stepResults, _ => ([], .ok (.complete stepResults))
  | step :: rest, stepResults, prev =>
    let ctx : StepContext := ⟨input, prev⟩
    match step.approval with
    | some message => ([], .ok (.pending stepResults step.name (message ctx)))
    | none =>
      match step.agent with
      | none => ([], .error ("Step \"" ++ step.name ++ "\" has no agent assigned."))
      | some agent =>
        match (step.message ctx).bind agent with
        | .error e => ([⟨step.name, ctx⟩], .error e)
        | .ok result =>
          let stepResults := stepResults.insert step.name result
          if result.succeeded then
            match step.stepOutput jsonParse result.response with
            | .error reason =>
              ([⟨step.name, ctx⟩], .ok (.failed stepResults step.name reason))
            | .ok output =>
              let run := runSteps rest stepResults (prev.insert step.name output)
              (⟨step.name, ctx⟩ :: run.1, run.2)
          else ([⟨step.name, ctx⟩], .ok (.failed stepResults step.name .agentFailed))

end

/-! ### Resuming -/

/-- What a step's output is restored to. -/
def StepResult.restored (result : StepResult) : Js :=
  .obj [("response", .str result.response), ("status", .str result.status.text)]

def restorePrev (previousResults : Record StepResult) : Record Js :=
  previousResults.entries.foldl (fun prev e => prev.insert e.1 e.2.restored) .empty

def restoreResults (previousResults : Record StepResult) : Record StepResult :=
  previousResults.entries.foldl (fun results e => results.insert e.1 e.2) .empty

/-- The steps behind the one that the workflow is resumed after. -/
def skipTo (name : String) : List StepDefinition → List StepDefinition
  | [] => []
  | step :: rest => if step.name = name then rest else skipTo name rest

def runWorkflow (jsonParse : String → Option Js) (workflow : WorkflowDefinition)
    (options : RunWorkflowOptions) : WorkflowRun :=
  match workflow.input options.input with
  | .failed error =>
    ([], .error ("Workflow \"" ++ workflow.name ++ "\" input validation failed: " ++ error))
  | .threw error => ([], .error error)
  | .ok _ =>
    let stepResults := (options.previousResults.map restoreResults).getD .empty
    let prev := (options.previousResults.map restorePrev).getD .empty
    match options.resumeAfter with
    | none => runSteps jsonParse options.input workflow.steps stepResults prev
    | some name =>
      if workflow.steps.any fun step => step.name == name then
        runSteps jsonParse options.input (skipTo name workflow.steps) stepResults prev
      else
        ([], .error ("Step \"" ++ name ++ "\" not found in workflow \"" ++ workflow.name ++
          "\"."))

end Vertz.Agents
