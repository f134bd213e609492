import Vertz.Agents.Run
import Vertz.Agents.Workflow

/-!
# `Vertz.Spec.AgentRuns`: runs of agents and of workflows

## What a turn says, and what is stored of it

What is said in a turn is the message of the user, each response that
calls tools with the results of its tools, and the text of the response
that ends the loop. It is read off the replies of the model, not off the
messages of the loop, which are compressed and cut.

`Aligned` is about the last compression: what it keeps behind as many
messages as the history has is what was said until then.
-/

namespace Vertz.Spec.AgentTurn

open Vertz.Agents ReactLoop

/-! ### What is said -/

section

variable (opts : ReactLoopOptions)

/-- A response that calls tools, and the results. -/
def exchange (iteration : ℕ) (response : LLMResponse) : List Message :=
  assistantWithToolCalls response ::
    match (runTools opts iteration response).result with
    | .ok results => results.map ToolCallResult.message
    | .error _ => []

/-- The exchanges of the replies, from the first iteration on. -/
def exchanges (replies : List (Except String LLMResponse)) : List Message :=
  replies.zipIdx.flatMap fun reply =>
    match reply.1 with
    | .ok response => exchange opts (reply.2 + 1) response
    | .error _ => []

/-- The message of the user and the exchanges. -/
def talk (replies : List (Except String LLMResponse)) : List Message :=
  .plain .user opts.userMessage :: exchanges opts replies

/-- The counters of the loop after the replies. -/
def counted (replies : List (Except String LLMResponse)) : LoopState :=
  replies.foldl (fun st reply =>
    match reply with
    | .ok response => (trackUsage opts st response).1
    | .error _ => st) (initialState opts)

/-- What a response says that stops the loop, if it does so. -/
def lastWords (before : List (Except String LLMResponse)) (response : LLMResponse) :
    Option (List Message) :=
  match (trackUsage opts (counted opts before) response).2 with
  | some _ => some (stopText response)
  | none =>
    if response.toolCalls.isEmpty then some [.plain .assistant response.text] else none

/-- The same for the last of the replies. -/
def ending (replies : List (Except String LLMResponse)) : Option (List Message) :=
  match replies.getLast? with
  | some (.ok response) => lastWords opts replies.dropLast response
  | some (.error _) => none
  | none => none

/-- The text of the response that stops the loop. -/
def closing (replies : List (Except String LLMResponse)) : List Message :=
  (ending opts replies).getD []

/-- The replies of the exchanges. -/
def exchanged (replies : List (Except String LLMResponse)) : List (Except String LLMResponse) :=
  if (ending opts replies).isSome then replies.dropLast else replies

/-- What was said in a turn with these replies. -/
def said (replies : List (Except String LLMResponse)) : List Message :=
  talk opts (exchanged opts replies) ++ closing opts replies

/-! ### What is seen of a turn -/

/-- What was seen until some moment of a turn. -/
structure Observed where
  replies : List (Except String LLMResponse)
  /-- The messages after the last compression, or at the start. -/
  base : List Message
  /-- What was said until then. -/
  heard : List Message
  written : List Message

def observe (o : Observed) : Event → Observed
  | .chat _ reply => { o with replies := o.replies ++ [reply] }
  | .compress _ result => { o with base := result, heard := talk opts o.replies }
  | .appendMessagesAtomic messages _ _ => { o with written := o.written ++ messages }
  | .handler _ _ => o
  | .saveSession _ _ => o
  | .appendMessages _ => o
  | .pruneMessages _ => o

def observed (events : List Event) : Observed :=
  events.foldl (observe opts)
    ⟨[], opts.previousMessages.getD [] ++ [.plain .user opts.userMessage], talk opts [], []⟩

/-- The last compression keeps what was said until then, behind as many
messages as the history has. -/
def Aligned (events : List Event) : Prop :=
  (nonSystem (observed opts events).base).drop (opts.previousMessages.getD []).length =
    (observed opts events).heard

end

/-! ### What is stored -/

section

variable (json : Json) (agent : AgentDefinition) (opts : RunOptions)

/-- With the durable store. The caller does not ask for pruning. -/
def durably : RunOptions := { opts with store := .sqlite, maxStoredMessages := none }

/-- The same with the store that is written at the end. -/
def atTheEnd : RunOptions := { opts with store := .memory, maxStoredMessages := none }

/-- The history of the turn: what was stored, with the calls answered that
a crashed turn left open. -/
def history (session : StoredSession) : Effects (Option (List Message)) :=
  (loadPrevious (durably opts) session).bind fun previousMessages =>
    (Lib.Effects.ofExcept agent.onStart).bind fun _ =>
      answerOrphan json agent (durably opts) previousMessages

/-- The replies of the model in the turn. -/
def replies (previousMessages : Option (List Message)) : List (Except String LLMResponse) :=
  (observed (loopOptions json agent (durably opts) previousMessages)
    (runLoop json agent (durably opts) previousMessages).events).replies

/-- A successful durable run stores what was said behind the history, and
so does the path without a durable store. -/
structure StoresWhatWasSaid (session : StoredSession) : Prop where
  durable : ∀ previousMessages result,
    (history json agent opts session).result = .ok previousMessages →
    (run json agent (durably opts) session).result = .ok result → result.status ≠ .error →
      (applyEvents .sqlite session (run json agent (durably opts) session).events).messages =
        (applyEvents .sqlite session (history json agent opts session).events).messages ++
          storedMessages .sqlite (said (loopOptions json agent (durably opts) previousMessages)
            (replies json agent opts previousMessages))
  atTheEnd : ∀ previousMessages result,
    (history json agent opts session).result = .ok previousMessages →
    (runLoop json agent (atTheEnd opts) previousMessages).result = .ok result →
    result.status ≠ .error → ∀ stored : StoredSession,
      (applyEvents .memory stored
          (runLoop json agent (AgentTurn.atTheEnd opts) previousMessages).events).messages =
        stored.messages ++ said (loopOptions json agent (durably opts) previousMessages)
          (replies json agent opts previousMessages)

/-- A turn that is stored as it was said: it calls no tool, or ends with
the results of its tools, and compression keeps to `Aligned`. -/
def StoredAsSaid (session : StoredSession) : Prop :=
  ∀ previousMessages result,
    (history json agent opts session).result = .ok previousMessages →
    (runLoop json agent (durably opts) previousMessages).result = .ok result →
    result.status ≠ .error →
      let loop := loopOptions json agent (durably opts) previousMessages
      let replies := replies json agent opts previousMessages
      (exchanged loop replies = [] ∨ closing loop replies = []) ∧
        Aligned loop (runLoop json agent (durably opts) previousMessages).events

end

end Vertz.Spec.AgentTurn

/-!
## Sessions that are broken off

A session is a list of turns. Each turn can be broken off after any of
its events; the next one resumes from what is stored. The log is all that
has happened.

`CrashConsistent` is what the log is to be. `Orderly` is about what the
model and the compression hook answer: calls have ids of their own, and
a hook returns no more messages than it is given.
-/

namespace Vertz.Spec.AgentSession

open Vertz.Agents

/-! ### Sessions -/

/-- A turn, and how many of its events happen before it is broken off. -/
structure Turn where
  agent : AgentDefinition
  opts : RunOptions
  cut : ℕ

/-- The options in a session. -/
def inSession (opts : RunOptions) (store : StoreKind) (sessionId : Option String) : RunOptions :=
  { opts with store := store, sessionId := sessionId }

section

variable (json : Json) (store : StoreKind) (sessionId : String)

def runTurn (sessionId : Option String) (session : StoredSession) (turn : Turn) :
    Effects LoopResult := run json turn.agent (inSession turn.opts store sessionId) session

/-- The first turn creates the session, the others resume it. -/
def resumedId (earlier : List Turn) : Option String :=
  if earlier.isEmpty then none else some sessionId

/-- The log of a session; the turns are listed from the last one. -/
def sessionLog : List Turn → List Event
  | [] => []
  | turn :: earlier =>
    let log := sessionLog earlier
    log ++ (runTurn json store (resumedId sessionId earlier)
      (applyEvents store .empty log) turn).events.take turn.cut

end

/-- What is stored after the events of a log. -/
def stored (store : StoreKind) (log : List Event) : List Message :=
  (applyEvents store .empty log).messages

/-! ### Consistency -/

/-- The handler of a tool that is not safe to retry runs for the call. -/
def handles (id : String) : Event → Bool
  | .handler call safeToRetry => !safeToRetry && call.id == some id
  | _ => false

/-- A tool message for the call. -/
def ResultOf (call : ToolCall) (m : Message) : Prop :=
  m.role = .tool ∧ ∀ id, call.id = some id → m.toolCallId = some id

def resultsWith (id : String) (history : List Message) : List Message :=
  history.filter fun m => m.role == .tool && m.toolCallId == some id

/-- Every call has its result, and not a second one. -/
structure Answered (history : List Message) : Prop where
  /-- The results are right behind the message that calls. -/
  behind : ∀ before m after calls, history = before ++ m :: after → m.toolCalls = some calls →
    ∃ results rest, after = results ++ rest ∧ List.Forall₂ ResultOf calls results
  once : ∀ m ∈ history, ∀ calls, m.toolCalls = some calls → ∀ call ∈ calls, ∀ id,
    call.id = some id → (resultsWith id history).length = 1

/-- No handler runs twice for a call that is not safe to retry, and the
model is asked only when every stored call is answered. -/
structure CrashConsistent (log : List Event) : Prop where
  handledOnce : ∀ id, (log.filter (handles id)).length ≤ 1
  answered : ∀ before messages reply after, log = before ++ .chat messages reply :: after →
    Answered (stored .sqlite before)

/-! ### What the model and the hook answer -/

/-- The call has an id. -/
def Named (call : ToolCall) : Prop := ∃ id, call.id = some id ∧ id ≠ ""

instance (call : ToolCall) : Decidable (Named call) :=
  match h : call.id with
  | none => isFalse fun ⟨_, hid, _⟩ => nomatch h.symm.trans hid
  | some id =>
    decidable_of_iff (id ≠ "")
      ⟨fun hne => ⟨id, h, hne⟩, fun ⟨_, hid, hne⟩ => Option.some.inj (h.symm.trans hid) ▸ hne⟩

def idsOf (calls : List ToolCall) : List String := calls.filterMap ToolCall.id

/-- The ids that the model has given. -/
def issued (log : List Event) : List String :=
  log.flatMap fun e =>
    match e with
    | .chat _ (.ok response) => idsOf response.toolCalls
    | _ => []

/-- Neither a call nor a result. -/
def Plain (m : Message) : Prop := m.toolCalls = none ∧ m.role ≠ .tool

instance (m : Message) : Decidable (Plain m) :=
  decidable_of_iff (m.toolCalls.isNone ∧ m.role ≠ .tool) (by rw [Option.isNone_iff_eq_none]; rfl)

/-- The last message that is not a system message is neither a call nor a
result. -/
def EndsPlain (messages : List Message) : Prop := ∀ m ∈ (nonSystem messages).getLast?, Plain m

instance (messages : List Message) : Decidable (EndsPlain messages) :=
  inferInstanceAs (Decidable (∀ m ∈ (nonSystem messages).getLast?, Plain m))

/-- What the model or the hook answers is in order. -/
def Fits : Event → Prop
  | .chat _ (.ok response) => ∀ call ∈ response.toolCalls, Named call
  | .compress messages result =>
    (nonSystem result).length ≤ (nonSystem messages).length ∧
      (EndsPlain messages → EndsPlain result)
  | _ => True

instance : DecidablePred Fits
  | .chat _ (.ok response) => inferInstanceAs (Decidable (∀ call ∈ response.toolCalls, Named call))
  | .chat _ (.error _) => .isTrue trivial
  | .compress messages result =>
    inferInstanceAs (Decidable ((nonSystem result).length ≤ (nonSystem messages).length ∧
      (EndsPlain messages → EndsPlain result)))
  | .handler _ _ => .isTrue trivial
  | .appendMessagesAtomic _ _ _ => .isTrue trivial
  | .saveSession _ _ => .isTrue trivial
  | .appendMessages _ => .isTrue trivial
  | .pruneMessages _ => .isTrue trivial

/-- Every call has an id of its own in the session, and hooks keep to the
length and the end of what they are given. -/
structure Orderly (log : List Event) : Prop where
  fits : ∀ e ∈ log, Fits e
  distinct : (issued log).Nodup

end Vertz.Spec.AgentSession

/-!
## Histories that a model provider takes

In a well-formed history each result stands behind the message that
issued its call, with only results in between, and each call has its
result. `WellFormedSoFar` is the same of a history whose last message
may still wait for its results.

`Tidy` is about the log of a session: calls have ids, a compression hook
keeps the form of what it is given, and pruning does not begin the
history with a result.
-/

namespace Vertz.Spec.AgentHistory

open Vertz.Agents Vertz.Spec.AgentSession

/-! ### Well-formed histories -/

/-- A message of the assistant with a call of this id. -/
def Issues (m : Message) (id : String) : Prop :=
  m.role = .assistant ∧ ∃ calls, m.toolCalls = some calls ∧ ∃ call ∈ calls, call.id = some id

/-- A result stands behind the message that issued its call, with only
results in between. -/
def PairedBehind (before : List Message) (m : Message) : Prop :=
  ∃ front caller results id, before = front ++ caller :: results ∧ Issues caller id ∧
    m.toolCallId = some id ∧ ∀ r ∈ results, r.role = .tool

def ResultsPaired (history : List Message) : Prop :=
  ∀ before m after, history = before ++ m :: after → m.role = .tool → PairedBehind before m

/-- The results stand right behind the message that calls. -/
def AnsweredBehind (calls : List ToolCall) (after : List Message) : Prop :=
  ∃ results rest, after = results ++ rest ∧ List.Forall₂ ResultOf calls results

structure WellFormed (history : List Message) : Prop where
  paired : ResultsPaired history
  answered : ∀ before m after calls, history = before ++ m :: after → m.toolCalls = some calls →
    AnsweredBehind calls after

/-- The calls of the last message may be open. -/
structure WellFormedSoFar (history : List Message) : Prop where
  paired : ResultsPaired history
  answered : ∀ before m after calls, history = before ++ m :: after → m.toolCalls = some calls →
    after = [] ∨ AnsweredBehind calls after

/-! ### Sessions -/

/-- Pruning does not begin the history with a result. -/
def CleanCut (history : List Message) (keepCount : ℕ) : Prop :=
  ∀ m ∈ (prune keepCount history).head?, m.role ≠ .tool

structure Tidy (store : StoreKind) (log : List Event) : Prop where
  fits : ∀ e ∈ log, Fits e
  /-- A hook keeps the form of a history. -/
  shaped : ∀ messages result, .compress messages result ∈ log →
    WellFormed (nonSystem messages) → WellFormed (nonSystem result)
  cuts : ∀ before keepCount after, log = before ++ .pruneMessages keepCount :: after →
    CleanCut (stored store before) keepCount

/-- The last turn is not broken off, and returns a result. -/
def LastReturned (json : Json) (store : StoreKind) (sessionId : String) : List Turn → Prop
  | [] => True
  | turn :: earlier =>
    let last := runTurn json store (resumedId sessionId earlier)
      (applyEvents store .empty (sessionLog json store sessionId earlier)) turn
    last.events.length ≤ turn.cut ∧ ∃ result, last.result = .ok result

end Vertz.Spec.AgentHistory

/-!
## Suspended and resumed workflows

A session runs a workflow and resumes it after each gate, until a run
ends at no gate. It is to come to what the workflow gives whose gates
were approved before: the same steps start with the same contexts, and
the status and the step results are the same.
-/

namespace Vertz.Spec.WorkflowSession

open Vertz.Lib Vertz.Agents

section

variable (jsonParse : String → Option Js)

/-- A session from the given options on. -/
inductive Session (workflow : WorkflowDefinition) : RunWorkflowOptions → WorkflowRun → Prop where
  | ended {options : RunWorkflowOptions} {starts : List StepStart}
      {outcome : Except String WorkflowResult}
      (hrun : runWorkflow jsonParse workflow options = (starts, outcome))
      (hended : ∀ result, outcome = .ok result → result.pendingStep = none) :
      Session workflow options (starts, outcome)
  | resumed {options : RunWorkflowOptions} {starts starts' : List StepStart}
      {result : WorkflowResult} {gate : String} {outcome : Except String WorkflowResult}
      (hrun : runWorkflow jsonParse workflow options = (starts, .ok result))
      (hgate : result.pendingStep = some gate)
      (hrest : Session workflow ⟨options.input, some gate, some result.stepResults⟩
        (starts', outcome)) :
      Session workflow options (starts ++ starts', outcome)

/-- The workflow without its gates. -/
def approved (workflow : WorkflowDefinition) : WorkflowDefinition where
  name := workflow.name
  input := workflow.input
  steps := workflow.steps.filter fun step => !step.isGate
  nodup := (List.filter_sublist.map _).nodup workflow.nodup

def uninterrupted (workflow : WorkflowDefinition) (input : Js) : WorkflowRun :=
  runWorkflow jsonParse (approved workflow) ⟨input, none, none⟩

/-- Resuming at the gates comes to what the uninterrupted run gives. -/
def ResumesAlike (workflow : WorkflowDefinition) (input : Js) : Prop :=
  Session jsonParse workflow ⟨input, none, none⟩ (uninterrupted jsonParse workflow input)

/-- The steps all succeed without interruption: their results and
outputs. -/
def passed (input : Js) :
    List StepDefinition → Record StepResult → Record Js → Option (Record StepResult × Record Js)
  | [], stepResults, prev => some (stepResults, prev)
  | step :: rest, stepResults, prev =>
    if step.isGate then passed input rest stepResults prev
    else
      match step.agent with
      | none => none
      | some agent =>
        match (step.message ⟨input, prev⟩).bind agent with
        | .error _ => none
        | .ok result =>
          if result.succeeded then
            match step.stepOutput jsonParse result.response with
            | .error _ => none
            | .ok output =>
              passed input rest (stepResults.insert step.name result)
                (prev.insert step.name output)
          else none

/-- The first step behind a gate that is no gate is run by an agent. -/
def Continues (rest : List StepDefinition) : Prop :=
  ∃ step ∈ rest.find? fun step => !step.isGate, step.agent.isSome

/-- Wherever the workflow goes on behind a gate, each output before it is
the record that restoring makes of the result: the response and the
status. -/
def OutputsRestored (workflow : WorkflowDefinition) (input : Js) : Prop :=
  ∀ data, workflow.input input = .ok data → ∀ before gate rest, workflow.steps = before ++ gate :: rest → gate.isGate = true →
    Continues rest → ∀ stepResults prev,
      passed jsonParse input before .empty .empty = some (stepResults, prev) →
        ∀ name result, stepResults.get? name = some result →
          prev.get? name = some result.restored

end

end Vertz.Spec.WorkflowSession
