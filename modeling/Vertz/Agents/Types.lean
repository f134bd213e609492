import Vertz.Js
import Vertz.Lib.Effects

/-!
# `Vertz.Agents.Types`: what the agent runtime shares

Messages, tools and what a model answers, and how an agent's loop can
end. A handler is a function of its input and of the moment it is called
at: the iteration, and the place of the call in it.
-/

namespace Vertz.Agents

inductive LoopStatus where
  | complete
  | maxIterations
  | stuck
  | error
  | tokenBudgetExhausted
  | diminishingReturns
  deriving DecidableEq, Repr

def LoopStatus.text : LoopStatus → String
  | .complete => "complete"
  | .maxIterations => "max-iterations"
  | .stuck => "stuck"
  | .error => "error"
  | .tokenBudgetExhausted => "token-budget-exhausted"
  | .diminishingReturns => "diminishing-returns"

/-- What parsing a value against a schema comes to. -/
inductive SchemaParse where
  | ok (data : Js)
  | failed (error : String)
  | threw (error : String)

/-! ### Messages -/

inductive Role where
  | system
  | user
  | assistant
  | tool
  deriving DecidableEq, Repr

/-- A tool call requested by the LLM. -/
structure ToolCall where
  id : Option String
  name : String
  arguments : Js

/-- A single message in the conversation. -/
structure Message where
  role : Role
  content : String
  /-- Tool call ID for tool result messages. -/
  toolCallId : Option String
  toolName : Option String
  /-- Tool calls requested by the assistant. -/
  toolCalls : Option (List ToolCall)

/-- A message without tool calls. -/
def Message.plain (role : Role) (content : String) : Message := ⟨role, content, none, none, none⟩

/-- `messages.filter((m) => m.role !== 'system')` -/
def nonSystem (messages : List Message) : List Message :=
  messages.filter fun m => m.role != .system

structure TokenUsage where
  inputTokens : ℕ
  outputTokens : ℕ

/-- The response from an LLM chat call. -/
structure LLMResponse where
  text : String
  toolCalls : List ToolCall
  usage : Option TokenUsage

/-! ### Tools -/

abbrev ToolHandler := ℕ × ℕ → Js → Except String Js

structure ToolDefinition where
  input : Js → SchemaParse
  output : Js → SchemaParse
  handler : Option ToolHandler
  /-- It can run concurrently with other parallel tools. -/
  parallel : Bool
  /-- The handler may be called again on session resume. -/
  safeToRetry : Bool

/-! ### Effects -/

/-- What a run does outside. The writes to the store name whom the
session belongs to. -/
inductive Event where
  | chat (messages : List Message) (reply : Except String LLMResponse)
  | compress (messages result : List Message)
  /-- The handler of a tool is called. -/
  | handler (call : ToolCall) (safeToRetry : Bool)
  | appendMessagesAtomic (messages : List Message) (userId tenantId : Option String)
  | saveSession (userId tenantId : Option String)
  | appendMessages (messages : List Message)
  | pruneMessages (keepCount : ℕ)

/-- A computation of the runtime. -/
abbrev Effects (α : Type) := Lib.Effects Event α

end Vertz.Agents
