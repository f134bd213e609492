import Vertz.Agents.ReactLoop

/-!
# `Vertz.Agents.Run`: a turn of a session

A turn loads the session, answers the tool calls that a crashed turn left
open, runs the loop and writes what the loop has not written yet. With
the SQLite store the loop writes at every step; with the memory store all
is written at the end, and a session cannot be resumed.

A store is seen as what it holds of one session. A turn is the list of
its events; `applyEvent` is what each one does to the store.
-/

namespace Vertz.Agents

open Vertz.Lib

/-! ### Stores -/

inductive StoreKind where
  | memory
  | sqlite
  deriving DecidableEq, Repr

structure SessionRow where
  userId : Option String
  tenantId : Option String
  deriving DecidableEq

/-- What a store holds of a session. -/
structure StoredSession where
  row : Option SessionRow
  messages : List Message

def StoredSession.empty : StoredSession := ⟨none, []⟩

/-- An empty text is falsy. -/
def truthyText (s : Option String) : Option String := s.filter fun s => !s.isEmpty

/-- What a row gives back of a message. -/
def rowToMessage (m : Message) : Message :=
  { m with
    toolCallId := truthyText m.toolCallId
    toolName := truthyText m.toolName
    toolCalls := m.toolCalls.map fun calls =>
      calls.map fun call => { call with arguments := Js.throughJson call.arguments } }

def storedMessages (kind : StoreKind) (messages : List Message) : List Message :=
  match kind with
  | .memory => messages
  | .sqlite => messages.map rowToMessage

/-- Keep the last messages. -/
def prune (keepCount : ℕ) (messages : List Message) : List Message :=
  messages.drop (messages.length - keepCount)

def applyEvent (kind : StoreKind) (session : StoredSession) : Event → StoredSession
  | .appendMessagesAtomic messages userId tenantId =>
    ⟨some ⟨userId, tenantId⟩, session.messages ++ storedMessages kind messages⟩
  | .saveSession userId tenantId => { session with row := some ⟨userId, tenantId⟩ }
  | .appendMessages messages =>
    { session with messages := session.messages ++ storedMessages kind messages }
  | .pruneMessages keepCount => { session with messages := prune keepCount session.messages }
  | .chat _ _ => session
  | .compress _ _ => session
  | .handler _ _ => session

def applyEvents (kind : StoreKind) (session : StoredSession) (events : List Event) :
    StoredSession := events.foldl (applyEvent kind) session

/-! ### Agents and turns -/

structure AgentDefinition where
  name : String
  system : Option String
  tools : Record ToolDefinition
  maxIterations : ℕ
  stuckThreshold : Option ℕ
  tokenBudget : Option TokenBudgetConfig
  diminishingReturns : Option DiminishingReturnsConfig
  maxToolConcurrency : Option ℕ
  contextCompression : Option ContextCompressionConfig
  output : Option (Js → SchemaParse)
  /-- The lifecycle hooks, as what they throw. -/
  onStart : Except String Unit
  onComplete : Except String Unit
  onStuck : Except String Unit

structure RunOptions where
  message : String
  llm : ℕ → List Message → Except String LLMResponse
  /-- Tool handler implementations to inject at runtime. -/
  tools : Record ToolHandler
  userId : Option String
  tenantId : Option String
  store : StoreKind
  /-- Resume an existing session. None creates a new one. -/
  sessionId : Option String
  maxStoredMessages : Option ℕ

/-- JSON as the language has it. -/
structure Json where
  parse : String → Option Js
  stringify : Js → String

/-- Scan back for an assistant message whose tool calls are not all
answered by the tool messages behind it, `later` being their ids. -/
def findOrphan (later : List String) : List Message → List ToolCall
  | [] => []
  | m :: before =>
    match m.role, m.toolCalls with
    | .assistant, some (call :: calls) =>
      (call :: calls).filter fun call =>
        match truthyText call.id with
        | some id => !later.contains id
        | none => false
    | .tool, _ => findOrphan (m.toolCallId.toList ++ later) before
    | _, _ => []

/-- The tool calls that the history leaves without results. -/
def findOrphanAssistantWithToolCalls (messages : List Message) : List ToolCall :=
  findOrphan [] messages.reverse

def mergeToolProvider (agentTools : Record ToolDefinition) (provider : Record ToolHandler) :
    Record ToolDefinition where
  entries := agentTools.entries.map fun e =>
    (e.1, match provider.get? e.1 with
      | some handler => { e.2 with handler := some handler }
      | none => e.2)
  nodup := by
    rw [List.map_map]
    exact agentTools.nodup

/-- The message of the error that tells the model of an open call. -/
def toolDurabilityText (callId toolName : String) : String :=
  "Tool '" ++ toolName ++ "' (call " ++ callId ++ ") was requested but its execution " ++
    "did not complete durably before the process ended. The tool is not " ++
    "declared 'safeToRetry: true', so the framework will not automatically " ++
    "re-invoke it. Decide recovery based on observable external state — e.g., " ++
    "check whether the side effect already occurred. If this tool is a pure " ++
    "read with no side effects, add `safeToRetry: true` to its declaration."

def toolDurabilityError (json : Json) (call : ToolCall) : Message :=
  let callId := call.id.getD ""
  toolMessage call callId (json.stringify (.obj
    [("error", .str (toolDurabilityText callId call.name)), ("kind", .str "tool-durability-error"),
      ("toolName", .str call.name), ("toolCallId", .str callId)]))

/-- The answer to an open call: the tool runs again where that is safe. -/
def resumeCall (json : Json) (tools : Record ToolDefinition) (call : ToolCall × ℕ) :
    Effects Message :=
  if ((tools.get? call.1.name).map ToolDefinition.safeToRetry).getD false then
    (executeToolCall json.stringify tools 0 call).bind fun result => .ret result.message
  else .ret (toolDurabilityError json call.1)

section

variable (json : Json) (agent : AgentDefinition) (opts : RunOptions)

def resolvedTools : Record ToolDefinition := mergeToolProvider agent.tools opts.tools

/-- Load the session that the turn resumes. -/
def loadPrevious (session : StoredSession) : Effects (Option (List Message)) :=
  match opts.sessionId with
  | none => .ret none
  | some id =>
    match opts.store with
    | .memory =>
      .throw ("memoryStore() cannot provide durable resume. Pass sessionId with a durable " ++
        "store (sqliteStore, d1Store) or omit sessionId to run statelessly.")
    | .sqlite =>
      match session.row with
      | none => .throw ("Session not found or access denied: " ++ id)
      | some row =>
        if ((truthyText row.userId).isSome && opts.userId != row.userId) ||
            ((truthyText row.tenantId).isSome && opts.tenantId != row.tenantId) then
          .throw ("Session not found or access denied: " ++ id)
        else .ret (some session.messages)

def appendAtomic (messages : List Message) : Effects Unit :=
  .perform (.appendMessagesAtomic messages opts.userId opts.tenantId)

def durable : Bool := opts.store == .sqlite

/-- Answer the calls that a crashed turn left open. -/
def answerOrphan (previousMessages : Option (List Message)) :
    Effects (Option (List Message)) :=
  match previousMessages with
  | none => .ret none
  | some previous =>
    if durable opts then
      match findOrphanAssistantWithToolCalls previous with
      | [] => .ret previousMessages
      | calls =>
        (Lib.Effects.each (resumeCall json (resolvedTools agent opts)) calls.zipIdx).bind
          fun resumeResults =>
            (appendAtomic opts resumeResults).bind fun _ =>
              .ret (some (previous ++ resumeResults))
    else .ret previousMessages

/-- Write new messages; the first time, with the message of the user. -/
def persistStep (persisted : Persisted) (newMessages : List Message) : Effects Persisted :=
  let batch :=
    if persisted.userPersisted then newMessages
    else .plain .user opts.message :: newMessages
  (appendAtomic opts batch).bind fun _ =>
    .ret ⟨true, persisted.writtenByLoop + batch.length⟩

def systemPrompt : String :=
  agent.system.getD ("You are an AI agent named \"" ++ agent.name ++
    "\". Use the available tools to accomplish the user's request.")

def loopOptions (previousMessages : Option (List Message)) : ReactLoopOptions where
  llm := opts.llm
  jsonStringify := json.stringify
  tools := resolvedTools agent opts
  systemPrompt := systemPrompt agent
  userMessage := opts.message
  maxIterations := agent.maxIterations
  stuckThreshold := agent.stuckThreshold
  previousMessages
  persistStep := if durable opts then some (persistStep opts) else none
  tokenBudget := agent.tokenBudget
  diminishingReturns := agent.diminishingReturns
  maxToolConcurrency := agent.maxToolConcurrency
  contextCompression := agent.contextCompression

/-- The lifecycle hook at the end of the loop. -/
def endHook (status : LoopStatus) : Except String Unit :=
  match status with
  | .complete => agent.onComplete
  | .error => .ok ()
  | _ => agent.onStuck

/-- Whether the response is what the output schema asks for. -/
def outputValid (result : LoopResult) : Except String Bool :=
  match agent.output with
  | none => .ok true
  | some output =>
    if result.status == .complete && !result.response.isEmpty then
      match json.parse result.response with
      | none => .ok false
      | some parsed =>
        match output parsed with
        | .ok _ => .ok true
        | .failed _ => .ok false
        | .threw error => .error error
    else .ok true

def pruneStored : Effects Unit :=
  match opts.maxStoredMessages with
  | none => .ret ()
  | some maxStored => .perform (.pruneMessages maxStored)

/-- The messages of the turn that the loop has not written. -/
def unpersistedTail (previousMessages : Option (List Message)) (result : LoopResult)
    (persisted : Persisted) : List Message :=
  let newSinceResume := (nonSystem result.messages).drop (previousMessages.getD []).length
  let alreadyPersisted := persisted.writtenByLoop + if persisted.userPersisted then 1 else 0
  if persisted.userPersisted then newSinceResume.drop alreadyPersisted else newSinceResume

def persistDurable (previousMessages : Option (List Message)) (result : LoopResult)
    (persisted : Persisted) : Effects Unit :=
  let tail := unpersistedTail previousMessages result persisted
  (if tail.isEmpty then .perform (.saveSession opts.userId opts.tenantId)
    else appendAtomic opts tail).bind fun _ => pruneStored opts

/-- The messages that are written at the end without a durable store. -/
def messagesToPersist (previousMessages : Option (List Message)) (result : LoopResult) :
    List Message :=
  let newMessages := nonSystem result.messages
  match previousMessages with
  | some previous => newMessages.drop previous.length
  | none => newMessages

def persistAtEnd (previousMessages : Option (List Message)) (result : LoopResult) :
    Effects Unit :=
  (Lib.Effects.perform (.saveSession opts.userId opts.tenantId)).bind fun _ =>
    let messages := messagesToPersist previousMessages result
    (if messages.isEmpty then Lib.Effects.ret () else .perform (.appendMessages messages)).bind
      fun _ => pruneStored opts

/-- A turn from the loop on. -/
def runLoop (previousMessages : Option (List Message)) : Effects LoopResult :=
  (reactLoop (loopOptions json agent opts previousMessages)).bind fun (result, persisted) =>
    (Lib.Effects.ofExcept (endHook agent result.status)).bind fun _ =>
      (Lib.Effects.ofExcept (outputValid json agent result)).bind fun valid =>
        if valid then
          if result.status == .error then .ret result
          else
            (if durable opts then persistDurable opts previousMessages result persisted
              else persistAtEnd opts previousMessages result).bind fun _ => .ret result
        else .ret { result with status := .error }

/-- A turn of the session. -/
def run (session : StoredSession) : Effects LoopResult :=
  (loadPrevious opts session).bind fun previousMessages =>
    (Lib.Effects.ofExcept agent.onStart).bind fun _ =>
      (answerOrphan json agent opts previousMessages).bind fun previousMessages =>
        runLoop json agent opts previousMessages

end

end Vertz.Agents
