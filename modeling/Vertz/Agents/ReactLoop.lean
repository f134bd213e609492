import Mathlib.Algebra.GroupWithZero.Nat
import Vertz.Agents.Types

/-!
# `Vertz.Agents.ReactLoop`: think, call tools, observe

The loop asks the model, runs the tools that the response calls, and goes
on until the response calls none, or a limit is reached. Before each
request the messages can be compressed. With a durable store the messages
of a step are written twice: the assistant's message before its tools
run, and the results after them.

`iterate` is one pass of the loop. The model answers by iteration and
messages.
-/

namespace Vertz.Agents

open Vertz.Lib

/-! ### Tool calls -/

structure ToolCallResult where
  message : Message
  success : Bool

def toolMessage (call : ToolCall) (callId content : String) : Message :=
  ⟨.tool, content, some callId, some call.name, none⟩

/-- `JSON.stringify({ error })` -/
def errorContent (jsonStringify : Js → String) (error : String) : String :=
  jsonStringify (.obj [("error", .str error)])

def toolNames (tools : Record ToolDefinition) : String :=
  if tools.keys.isEmpty then "none" else ", ".intercalate tools.keys

/-- Execute a single tool call. -/
def executeToolCall (jsonStringify : Js → String) (tools : Record ToolDefinition)
    (iteration : ℕ) (toolCall : ToolCall × ℕ) : Effects ToolCallResult :=
  let call := toolCall.1
  let callId := call.id.getD ("call_" ++ toString iteration ++ "_" ++ call.name)
  let failed (error : String) : ToolCallResult :=
    ⟨toolMessage call callId (errorContent jsonStringify error), false⟩
  match tools.get? call.name with
  | none =>
    .ret (failed ("Tool \"" ++ call.name ++ "\" not found. Available tools: " ++
      toolNames tools))
  | some toolDef =>
    match toolDef.handler with
    | none =>
      .ret (failed ("Tool \"" ++ call.name ++ "\" has no handler. Provide a handler on " ++
        "the tool definition or inject one via the `tools` ToolProvider option on " ++
        "run()/runWorkflow()."))
    | some handler =>
      match toolDef.input call.arguments with
      | .threw error => .throw error
      | .failed error =>
        .ret (failed ("Invalid input for tool \"" ++ call.name ++ "\": " ++ error))
      | .ok data =>
        (Lib.Effects.perform (.handler call toolDef.safeToRetry)).bind fun _ => .ret <|
          match handler (iteration, toolCall.2) data with
          | .error error => failed error
          | .ok result =>
            match toolDef.output result with
            | .ok data => ⟨toolMessage call callId (jsonStringify data), true⟩
            | .failed error =>
              failed ("Tool \"" ++ call.name ++ "\" returned invalid output: " ++ error)
            | .threw error => failed error

structure ToolCallBatch where
  concurrent : Bool
  calls : List (ToolCall × ℕ)

def isParallel (tools : Record ToolDefinition) (call : ToolCall × ℕ) : Bool :=
  match tools.get? call.1.name with
  | some toolDef => toolDef.parallel
  | none => false

/-- Partition tool calls into maximal consecutive runs of parallel or
serial tools, `current` being the run under way. -/
def partitionFrom (tools : Record ToolDefinition) (current : ToolCallBatch) :
    List (ToolCall × ℕ) → List ToolCallBatch
  | [] => [current]
  | call :: calls =>
    if isParallel tools call = current.concurrent then
      partitionFrom tools { current with calls := current.calls ++ [call] } calls
    else current :: partitionFrom tools ⟨isParallel tools call, [call]⟩ calls

def partitionToolCalls (tools : Record ToolDefinition) :
    List (ToolCall × ℕ) → List ToolCallBatch
  | [] => []
  | call :: calls => partitionFrom tools ⟨isParallel tools call, [call]⟩ calls

/-- Slices of at most `size` elements; `fuel` is the number of elements. -/
def inChunks {α : Type} (size : ℕ) : ℕ → List α → List (List α)
  | _, [] => []
  | 0, _ => []
  | fuel + 1, as => as.take size :: inChunks size fuel (as.drop size)

/-- Process in chunks of `maxConcurrency`. With chunks of no call the
source does not return. -/
def runConcurrentBatch (execute : ToolCall × ℕ → Effects ToolCallResult)
    (maxConcurrency : ℕ) (calls : List (ToolCall × ℕ)) : Effects (List ToolCallResult) :=
  if maxConcurrency = 0 then .throw "does not return"
  else
    (Lib.Effects.each (Lib.Effects.together execute) (inChunks maxConcurrency calls.length calls)).bind
      fun results => .ret results.flatten

def runBatch (execute : ToolCall × ℕ → Effects ToolCallResult) (maxConcurrency : ℕ)
    (batch : ToolCallBatch) : Effects (List ToolCallResult) :=
  if batch.concurrent && decide (1 < batch.calls.length) then
    runConcurrentBatch execute maxConcurrency batch.calls
  else Lib.Effects.each execute batch.calls

/-! ### The loop -/

structure TokenBudgetConfig where
  max : ℕ
  warningThreshold : Option ℚ
  stopThreshold : Option ℚ
  /-- A text, or a function of the percentage, the tokens used and the
  budget. -/
  warningMessage : Option (ℤ → ℕ → ℕ → String)

structure DiminishingReturnsConfig where
  consecutiveThreshold : ℕ
  minDeltaTokens : ℕ

/-- Context compression hook configuration. The hook is also given the
iteration. -/
structure ContextCompressionConfig where
  maxMessages : Option ℕ
  maxTokenEstimate : Option ℚ
  compress : ℕ → List Message → Except String (List Message)

/-- What the caller's `persistStep` has written. -/
structure Persisted where
  userPersisted : Bool
  writtenByLoop : ℕ

structure ReactLoopOptions where
  llm : ℕ → List Message → Except String LLMResponse
  jsonStringify : Js → String
  tools : Record ToolDefinition
  systemPrompt : String
  userMessage : String
  maxIterations : ℕ
  stuckThreshold : Option ℕ
  previousMessages : Option (List Message)
  persistStep : Option (Persisted → List Message → Effects Persisted)
  tokenBudget : Option TokenBudgetConfig
  diminishingReturns : Option DiminishingReturnsConfig
  maxToolConcurrency : Option ℕ
  contextCompression : Option ContextCompressionConfig

structure LoopState where
  messages : List Message
  consecutiveNoProgress : ℕ
  totalInputTokens : ℕ
  totalOutputTokens : ℕ
  warningSent : Bool
  consecutiveLowDelta : ℕ
  previousTotalTokens : ℕ
  persisted : Persisted

structure LoopResult where
  status : LoopStatus
  response : String
  iterations : ℕ
  messages : List Message

/-- The length in UTF-16 code units. -/
def utf16Length (s : String) : ℕ := (s.toList.map fun c => if c.toNat < 0x10000 then 1 else 2).sum

/-- Check if messages should be compressed based on the compression
config. -/
def shouldCompressMessages (messages : List Message) (config : ContextCompressionConfig) : Bool :=
  (match config.maxMessages with
    | some maxMessages => decide (maxMessages < messages.length)
    | none => false) ||
  match config.maxTokenEstimate with
    | some maxTokenEstimate =>
      decide (maxTokenEstimate < (messages.map fun m => (utf16Length m.content : ℚ) / 4).sum)
    | none => false

namespace ReactLoop

variable (opts : ReactLoopOptions)

def compressContext (iteration : ℕ) (st : LoopState) : Effects LoopState :=
  match opts.contextCompression with
  | none => .ret st
  | some config =>
    if shouldCompressMessages st.messages config then
      (Lib.Effects.ofExcept (config.compress iteration (st.messages.drop 1))).bind fun compressed =>
        (Lib.Effects.perform (.compress (st.messages.drop 1) compressed)).bind fun _ =>
          if compressed.isEmpty then
            .throw "Context compression returned empty message array"
          else .ret { st with messages := st.messages.take 1 ++ compressed }
    else .ret st

/-- `total / max >= threshold` -/
def usedAtLeast (max total : ℕ) (threshold : ℚ) : Bool :=
  if max = 0 then decide (0 < total) else decide (threshold ≤ (total : ℚ) / max)

def warningContent (budget : TokenBudgetConfig) (total : ℕ) : String :=
  let pct := ((total : ℚ) / budget.max * 100 + 1 / 2).floor
  match budget.warningMessage with
  | some warningMessage => warningMessage pct total budget.max
  | none =>
    "Warning: You have used " ++ toString pct ++ "% of your token budget (" ++
      toString total ++ "/" ++ toString budget.max ++
      " tokens). Please wrap up your current task."

def checkBudget (st : LoopState) : LoopState × Option LoopStatus :=
  match opts.tokenBudget with
  | none => (st, none)
  | some budget =>
    let total := st.totalInputTokens + st.totalOutputTokens
    if usedAtLeast budget.max total (budget.stopThreshold.getD (9 / 10)) then
      (st, some .tokenBudgetExhausted)
    else if !st.warningSent &&
        usedAtLeast budget.max total (budget.warningThreshold.getD (8 / 10)) then
      ({ st with
          warningSent := true
          messages := st.messages ++ [.plain .system (warningContent budget total)] }, none)
    else (st, none)

def checkReturns (st : LoopState) : LoopState × Option LoopStatus :=
  match opts.diminishingReturns with
  | none => (st, none)
  | some config =>
    let total := st.totalInputTokens + st.totalOutputTokens
    let delta := total - st.previousTotalTokens
    let st := { st with previousTotalTokens := total }
    if delta < config.minDeltaTokens then
      let st := { st with consecutiveLowDelta := st.consecutiveLowDelta + 1 }
      if config.consecutiveThreshold ≤ st.consecutiveLowDelta then
        (st, some .diminishingReturns)
      else (st, none)
    else ({ st with consecutiveLowDelta := 0 }, none)

/-- Count the tokens of a response, and say whether to stop. -/
def trackUsage (st : LoopState) (response : LLMResponse) : LoopState × Option LoopStatus :=
  match response.usage with
  | none => (st, none)
  | some usage =>
    let st := { st with
      totalInputTokens := st.totalInputTokens + usage.inputTokens
      totalOutputTokens := st.totalOutputTokens + usage.outputTokens }
    match checkBudget opts st with
    | (st, some status) => (st, some status)
    | (st, none) => checkReturns opts st

/-- The text of a response that stops the loop, unless it is empty. -/
def stopText (response : LLMResponse) : List Message :=
  if response.text.isEmpty then [] else [.plain .assistant response.text]

def assistantWithToolCalls (response : LLMResponse) : Message :=
  { role := .assistant
    content :=
      if response.text.isEmpty then
        "[Calling " ++ ", ".intercalate (response.toolCalls.map ToolCall.name) ++ "]"
      else response.text
    toolCallId := none
    toolName := none
    toolCalls := some response.toolCalls }

def persist (persisted : Persisted) (newMessages : List Message) : Effects Persisted :=
  match opts.persistStep with
  | none => .ret persisted
  | some persistStep => persistStep persisted newMessages

def runTools (iteration : ℕ) (response : LLMResponse) : Effects (List ToolCallResult) :=
  (Lib.Effects.each
    (runBatch (executeToolCall opts.jsonStringify opts.tools iteration)
      (opts.maxToolConcurrency.getD 5))
    (partitionToolCalls opts.tools response.toolCalls.zipIdx)).bind
      fun results => .ret results.flatten

/-- Whether the loop is stuck. -/
def isStuck (consecutiveNoProgress : ℕ) : Bool :=
  match opts.stuckThreshold with
  | none => false
  | some stuckThreshold =>
    decide (0 < stuckThreshold ∧ stuckThreshold ≤ consecutiveNoProgress)

/-- How a pass of the loop ends. The loop goes on, or it returns, and the
caller knows what it has written. -/
abbrev Pass := LoopState ⊕ LoopResult × Persisted

/-- The tools of a response run, and their results are noted. -/
def toolStep (iteration : ℕ) (st : LoopState) (response : LLMResponse) : Effects Pass :=
  let assistant := assistantWithToolCalls response
  (persist opts st.persisted [assistant]).bind fun persisted =>
    (runTools opts iteration response).bind fun results =>
      let toolResults := results.map ToolCallResult.message
      (if toolResults.isEmpty then Lib.Effects.ret persisted
        else persist opts persisted toolResults).bind fun persisted =>
          let noProgress :=
            if results.any ToolCallResult.success then 0 else st.consecutiveNoProgress + 1
          let messages := st.messages ++ assistant :: toolResults
          .ret <|
            if isStuck opts noProgress then .inr (⟨.stuck, "", iteration, messages⟩, persisted)
            else .inl { st with
              messages := messages
              consecutiveNoProgress := noProgress
              persisted := persisted }

/-- What a response leads to. -/
def respond (iteration : ℕ) (st : LoopState) (response : LLMResponse) : Effects Pass :=
  match trackUsage opts st response with
  | (st, some status) =>
    .ret (.inr (⟨status, response.text, iteration, st.messages ++ stopText response⟩,
      st.persisted))
  | (st, none) =>
    if response.toolCalls.isEmpty then
      .ret (.inr (⟨.complete, response.text, iteration,
        st.messages ++ [.plain .assistant response.text]⟩, st.persisted))
    else toolStep opts iteration st response

/-- One pass of the loop. -/
def iterate (iteration : ℕ) (st : LoopState) : Effects Pass :=
  (compressContext opts iteration st).bind fun st =>
    let reply := opts.llm iteration st.messages
    (Lib.Effects.perform (.chat st.messages reply)).bind fun _ =>
      match reply with
      | .error error => .ret (.inr (⟨.error, error, iteration, st.messages⟩, st.persisted))
      | .ok response => respond opts iteration st response

/-- The text of the last message of the assistant. -/
def lastAssistantText (messages : List Message) : String :=
  match messages.reverse.find? fun m => m.role == .assistant with
  | some m => m.content
  | none => ""

/-- So many more passes. -/
def loop : ℕ → ℕ → LoopState → Effects (LoopResult × Persisted)
  | 0, iteration, st =>
    .ret (⟨.maxIterations, lastAssistantText st.messages, iteration, st.messages⟩, st.persisted)
  | left + 1, iteration, st =>
    (iterate opts (iteration + 1) st).bind fun
      | .inl st => loop left (iteration + 1) st
      | .inr ended => .ret ended

def initialState : LoopState where
  messages := .plain .system opts.systemPrompt ::
    (opts.previousMessages.getD [] ++ [.plain .user opts.userMessage])
  consecutiveNoProgress := 0
  totalInputTokens := 0
  totalOutputTokens := 0
  warningSent := false
  consecutiveLowDelta := 0
  previousTotalTokens := 0
  persisted := ⟨false, 0⟩

end ReactLoop

def reactLoop (opts : ReactLoopOptions) : Effects (LoopResult × Persisted) :=
  ReactLoop.loop opts opts.maxIterations 0 (ReactLoop.initialState opts)

end Vertz.Agents
