import Vertz.Agents.Run

/-!
# `Vertz.Proofs.ToolCalls`: what calling tools does
-/

namespace Vertz.Proofs

open Vertz.Lib
open Vertz.Agents List

@[simp] theorem nonSystem_append (ms ms' : List Message) :
    nonSystem (ms ++ ms') = nonSystem ms ++ nonSystem ms' := filter_append ..

/-- The id under which the result of a call is noted. -/
def callId (iteration : ℕ) (call : ToolCall) : String :=
  call.id.getD ("call_" ++ toString iteration ++ "_" ++ call.name)

/-- A tool message for the call. -/
def AnswersCall (iteration : ℕ) (call : ToolCall) (message : Message) : Prop :=
  ∃ content, message = toolMessage call (callId iteration call) content

variable {iteration : ℕ}

theorem answers_ok {call : ToolCall} {content : String} {success : Bool} {result : ToolCallResult}
    (h : (.ok ⟨toolMessage call (callId iteration call) content, success⟩ :
      Except String ToolCallResult) = .ok result) : AnswersCall iteration call result.message := by
  cases h
  exact ⟨content, rfl⟩

theorem executeToolCall_cases (jsonStringify : Js → String) (tools : Record ToolDefinition)
    (iteration : ℕ) (call : ToolCall × ℕ) :
    ∃ r : Except String ToolCallResult,
      (∀ result, r = .ok result → AnswersCall iteration call.1 result.message) ∧
        (executeToolCall jsonStringify tools iteration call = .ofExcept r ∨
          ∃ toolDef, tools.get? call.1.name = some toolDef ∧
            executeToolCall jsonStringify tools iteration call =
              (Effects.perform (.handler call.1 toolDef.safeToRetry)).bind
                fun _ => .ofExcept r) := by
  unfold executeToolCall
  dsimp only
  cases tools.get? call.1.name with
  | none => exact ⟨.ok _, fun _ h => answers_ok h, .inl rfl⟩
  | some toolDef =>
    dsimp only
    cases toolDef.handler with
    | none => exact ⟨.ok _, fun _ h => answers_ok h, .inl rfl⟩
    | some handler =>
      dsimp only
      cases toolDef.input call.1.arguments with
      | threw error => exact ⟨.error error, fun _ h => (nomatch h), .inl rfl⟩
      | failed error => exact ⟨.ok _, fun _ h => answers_ok h, .inl rfl⟩
      | ok data =>
        refine ⟨.ok _, ?_, .inr ⟨toolDef, rfl, rfl⟩⟩
        cases handler (iteration, call.2) data with
        | error error => exact fun _ h => answers_ok h
        | ok result =>
          dsimp only
          cases toolDef.output result <;> exact fun _ h => answers_ok h

/-- The event of a tool that runs. -/
def IsHandler : Event → Prop
  | .handler _ _ => True
  | _ => False

theorem executeToolCall_only (jsonStringify : Js → String) (tools : Record ToolDefinition)
    (iteration : ℕ) (call : ToolCall × ℕ) :
    Effects.Only IsHandler (executeToolCall jsonStringify tools iteration call) := by
  obtain ⟨r, -, h | ⟨toolDef, -, h⟩⟩ :=
    executeToolCall_cases jsonStringify tools iteration call
  · rw [h]
    exact .ofExcept r
  · rw [h]
    exact (Effects.Only.perform trivial).bind fun _ => .ofExcept r

theorem runBatch_only {execute : ToolCall × ℕ → Effects ToolCallResult}
    (h : ∀ call, Effects.Only IsHandler (execute call)) (maxConcurrency : ℕ)
    (batch : ToolCallBatch) : Effects.Only IsHandler (runBatch execute maxConcurrency batch) := by
  unfold runBatch
  split
  · unfold runConcurrentBatch
    split
    · exact .throw _
    · exact (Effects.Only.each (Effects.Only.together h) _).bind fun _ => .ret _
  · exact .each h _

theorem runTools_only (opts : ReactLoopOptions) (iteration : ℕ) (response : LLMResponse) :
    Effects.Only IsHandler (ReactLoop.runTools opts iteration response) :=
  (Effects.Only.each (runBatch_only (fun call => executeToolCall_only _ _ _ call) _) _).bind
    fun _ => .ret _

/-! ### Batches -/

theorem partitionFrom_calls (tools : Record ToolDefinition) (current : ToolCallBatch)
    (calls : List (ToolCall × ℕ)) :
    (partitionFrom tools current calls).flatMap ToolCallBatch.calls =
      current.calls ++ calls := by
  induction calls generalizing current with
  | nil => rfl
  | cons call calls ih =>
    rw [partitionFrom]
    split
    · rw [ih, append_assoc]
      rfl
    · rw [flatMap_cons, ih]
      rfl

theorem partitionToolCalls_calls (tools : Record ToolDefinition)
    (calls : List (ToolCall × ℕ)) :
    (partitionToolCalls tools calls).flatMap ToolCallBatch.calls = calls := by
  cases calls with
  | nil => rfl
  | cons call calls => exact partitionFrom_calls tools _ calls

theorem inChunks_flatten {α : Type} {size : ℕ} (hsize : size ≠ 0) (fuel : ℕ) (as : List α)
    (h : as.length ≤ fuel) : (inChunks size fuel as).flatten = as := by
  induction fuel generalizing as with
  | zero =>
    cases eq_nil_of_length_eq_zero (Nat.le_zero.mp h)
    rfl
  | succ fuel ih =>
    cases as with
    | nil => rfl
    | cons a as =>
      have hlength : ((a :: as).drop size).length ≤ fuel := by
        rw [length_drop]
        omega
      show ((a :: as).take size :: inChunks size fuel ((a :: as).drop size)).flatten = a :: as
      rw [flatten_cons, ih _ hlength]
      exact take_append_drop size (a :: as)

variable {results : List ToolCallResult}

theorem runBatch_ok {execute : ToolCall × ℕ → Effects ToolCallResult} {maxConcurrency : ℕ}
    {batch : ToolCallBatch} (h : (runBatch execute maxConcurrency batch).result = .ok results) :
    List.Forall₂ (fun call result => (execute call).result = .ok result) batch.calls results := by
  unfold runBatch at h
  split at h
  · unfold runConcurrentBatch at h
    split at h
    · cases h
    · next hsize =>
        obtain ⟨chunks, hchunks, hresults, -⟩ := Effects.bind_ok h
        cases hresults
        rw [← inChunks_flatten hsize batch.calls.length batch.calls le_rfl]
        exact rel_flatten ((Effects.each_ok hchunks).imp fun _ _ => Effects.together_ok)
  · exact Effects.each_ok h

theorem runTools_ok {opts : ReactLoopOptions} {response : LLMResponse}
    (h : (ReactLoop.runTools opts iteration response).result = .ok results) :
    List.Forall₂
      (fun call result =>
        (executeToolCall opts.jsonStringify opts.tools iteration call).result = .ok result)
      response.toolCalls.zipIdx results := by
  obtain ⟨batches, hbatches, hresults, -⟩ := Effects.bind_ok h
  cases hresults
  have hcalls := partitionToolCalls_calls opts.tools response.toolCalls.zipIdx
  rw [← hcalls, flatMap_def]
  refine rel_flatten ?_
  rw [forall₂_map_left_iff]
  exact (Effects.each_ok hbatches).imp fun _ _ => runBatch_ok

theorem executeToolCall_answers {jsonStringify : Js → String} {tools : Record ToolDefinition}
    {call : ToolCall × ℕ} {result : ToolCallResult}
    (h : (executeToolCall jsonStringify tools iteration call).result = .ok result) :
    AnswersCall iteration call.1 result.message := by
  obtain ⟨r, hr, heq | ⟨toolDef, -, heq⟩⟩ :=
    executeToolCall_cases jsonStringify tools iteration call
  · rw [heq, Effects.ofExcept_result] at h
    exact hr result h
  · rw [heq, Effects.bind_perform, Effects.ofExcept_result] at h
    exact hr result h

theorem runTools_messages {opts : ReactLoopOptions} {response : LLMResponse}
    (h : (ReactLoop.runTools opts iteration response).result = .ok results) :
    List.Forall₂ (AnswersCall iteration) response.toolCalls
      (results.map ToolCallResult.message) := by
  have hall := (runTools_ok h).imp fun _ _ => executeToolCall_answers
  rw [forall₂_map_right_iff, ← zipIdx_map_fst 0 response.toolCalls,
    forall₂_map_left_iff]
  exact hall

theorem nonSystem_of_answers {calls : List ToolCall} {messages : List Message}
    (h : List.Forall₂ (AnswersCall iteration) calls messages) : nonSystem messages = messages := by
  refine filter_eq_self.mpr fun m hm => ?_
  obtain ⟨n, hn, rfl⟩ := mem_iff_getElem.mp hm
  obtain ⟨content, hcontent⟩ := (forall₂_iff_get.mp h).2 n (by rw [h.length_eq]; exact hn) hn
  rw [get_eq_getElem] at hcontent
  rw [hcontent]
  rfl

end Vertz.Proofs
