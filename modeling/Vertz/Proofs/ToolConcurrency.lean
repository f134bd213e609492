import Vertz.Proofs.ToolCalls

/-!
# `Vertz.Proofs.ToolConcurrency`: which tool calls run at the same time

The tools of a step run in groups, one group after the other. The calls of a
group are all started before any is awaited, so that calls overlap if and
only if they are in one group.
-/

namespace Vertz.Proofs

open Vertz.Lib
open Vertz.Agents List ReactLoop

variable {tools : Record ToolDefinition} {execute : ToolCall × ℕ → Agents.Effects ToolCallResult}
  {groups : List (List (ToolCall × ℕ))} {size : ℕ}

/-- The groups one after the other. -/
def runGroups (execute : ToolCall × ℕ → Agents.Effects ToolCallResult)
    (groups : List (List (ToolCall × ℕ))) : Agents.Effects (List ToolCallResult) :=
  (Effects.each (Effects.together execute) groups).bind fun results => .ret results.flatten

/-- The groups in which a batch runs. -/
def batchGroups (size : ℕ) (batch : ToolCallBatch) : List (List (ToolCall × ℕ)) :=
  if batch.concurrent && decide (1 < batch.calls.length) then
    inChunks size batch.calls.length batch.calls
  else batch.calls.map fun call => [call]

theorem runGroups_cons (group : List (ToolCall × ℕ)) :
    runGroups execute (group :: groups) = (Effects.together execute group).bind fun results =>
      (runGroups execute groups).bind fun rest => .ret (results ++ rest) := by
  simp only [runGroups, Effects.each, Effects.bind_assoc, Effects.bind_ret, flatten_cons]

theorem runGroups_append (groups' : List (List (ToolCall × ℕ))) :
    runGroups execute (groups ++ groups') = (runGroups execute groups).bind fun results =>
      (runGroups execute groups').bind fun rest => .ret (results ++ rest) := by
  induction groups with
  | nil =>
    have hret : ∀ x : Agents.Effects (List ToolCallResult), x.bind (fun rest => .ret rest) = x := by
      rintro ⟨events, _ | _⟩ <;> simp [Effects.bind, Effects.ret]
    exact (hret _).symm
  | cons group groups ih =>
    rw [cons_append, runGroups_cons, runGroups_cons, ih]
    simp only [Effects.bind_assoc, Effects.bind_ret, append_assoc]

theorem runGroups_single (calls : List (ToolCall × ℕ)) :
    runGroups execute (calls.map fun call => [call]) = Effects.each execute calls := by
  induction calls with
  | nil => rfl
  | cons call calls ih =>
    have hone : Effects.together execute [call] = (execute call).bind fun r => .ret [r] := by
      cases hr : (execute call).result <;>
        simp [Effects.together, Effects.collect, Effects.bind, Effects.ret, hr]
    rw [map_cons, runGroups_cons, ih, hone]
    simp only [Effects.bind_assoc, Effects.bind_ret, Effects.each, singleton_append]

theorem runBatch_eq (hsize : size ≠ 0) (batch : ToolCallBatch) :
    runBatch execute size batch = runGroups execute (batchGroups size batch) := by
  rw [runBatch, batchGroups, runConcurrentBatch, if_neg hsize]
  split
  · rfl
  · exact (runGroups_single _).symm

theorem runBatches_eq (hsize : size ≠ 0) (batches : List ToolCallBatch) :
    ((Effects.each (runBatch execute size) batches).bind fun results => .ret results.flatten) =
      runGroups execute (batches.flatMap (batchGroups size)) := by
  induction batches with
  | nil => rfl
  | cons batch batches ih =>
    rw [flatMap_cons, runGroups_append, ← ih, ← runBatch_eq hsize]
    simp only [Effects.each, Effects.bind_assoc, Effects.bind_ret, flatten_cons]

theorem runGroups_ok (h : ∀ call ∈ groups.flatten, ∃ r, (execute call).result = .ok r) :
    ∃ results, (runGroups execute groups).result = .ok results := by
  have hgroup : ∀ calls : List (ToolCall × ℕ),
      (∀ call ∈ calls, ∃ r, (execute call).result = .ok r) →
      ∃ results, (Effects.together execute calls).result = .ok results := by
    intro calls
    induction calls with
    | nil => exact fun _ => ⟨[], rfl⟩
    | cons call calls ih =>
      intro h
      obtain ⟨r, hr⟩ := h call mem_cons_self
      obtain ⟨rs, hrs⟩ := ih fun call hcall => h call (mem_cons_of_mem _ hcall)
      exact ⟨r :: rs, by
        rw [show (Effects.together execute calls).result = Effects.collect _ calls from rfl] at hrs
        simp [Effects.together, Effects.collect, hr, hrs]⟩
  induction groups with
  | nil => exact ⟨[], rfl⟩
  | cons group groups ih =>
    rw [flatten_cons, forall_mem_append] at h
    obtain ⟨results, hresults⟩ := hgroup group h.1
    obtain ⟨rest, hrest⟩ := ih h.2
    refine ⟨results ++ rest, ?_⟩
    rw [runGroups_cons, Effects.bind_result, hresults]
    show ((runGroups execute groups).bind _).result = _
    rw [Effects.bind_result, hrest]
    rfl

/-! ### What is in a group -/

theorem partitionFrom_kind (calls : List (ToolCall × ℕ)) {current : ToolCallBatch}
    (h : ∀ call ∈ current.calls, isParallel tools call = current.concurrent) :
    ∀ batch ∈ partitionFrom tools current calls,
      ∀ call ∈ batch.calls, isParallel tools call = batch.concurrent := by
  induction calls generalizing current with
  | nil => simpa [partitionFrom] using h
  | cons call calls ih =>
    rw [partitionFrom]
    split
    · rename_i hsame
      exact ih (forall_mem_append.mpr ⟨h, by simpa using hsame⟩)
    · simp only [forall_mem_cons]
      exact ⟨h, ih (by simp)⟩

theorem inChunks_length {calls : List (ToolCall × ℕ)} (fuel : ℕ) :
    ∀ chunk ∈ inChunks size fuel calls, chunk.length ≤ size ∧ ∀ call ∈ chunk, call ∈ calls := by
  induction fuel generalizing calls with
  | zero => cases calls <;> simp [inChunks]
  | succ fuel ih =>
    cases calls with
    | nil => simp [inChunks]
    | cons call calls =>
      simp only [inChunks, forall_mem_cons]
      refine ⟨⟨length_take_le _ _, fun c hc => mem_of_mem_take hc⟩, ?_⟩
      exact fun chunk hchunk => ⟨(ih chunk hchunk).1,
        fun c hc => mem_of_mem_drop ((ih chunk hchunk).2 c hc)⟩

/-- A group is within the limit, and holds several calls only if all are to
parallel tools. -/
def GroupAllowed (tools : Record ToolDefinition) (size : ℕ) (group : List (ToolCall × ℕ)) : Prop :=
  group.length ≤ size ∧ (1 < group.length → ∀ call ∈ group, isParallel tools call = true)

theorem batchGroups_allowed (hsize : size ≠ 0) {batch : ToolCallBatch}
    (h : ∀ call ∈ batch.calls, isParallel tools call = batch.concurrent) :
    (batchGroups size batch).flatten = batch.calls ∧
      ∀ group ∈ batchGroups size batch, GroupAllowed tools size group := by
  rw [batchGroups]
  split
  · rename_i hconcurrent
    rw [Bool.and_eq_true] at hconcurrent
    refine ⟨inChunks_flatten hsize _ _ le_rfl, fun group hgroup => ?_⟩
    obtain ⟨hlength, hmem⟩ := inChunks_length _ group hgroup
    exact ⟨hlength, fun _ call hcall => (h call (hmem call hcall)).trans hconcurrent.1⟩
  · refine ⟨by simp [← flatMap_def], fun group hgroup => ?_⟩
    obtain ⟨call, -, rfl⟩ := mem_map.mp hgroup
    exact ⟨Nat.pos_of_ne_zero hsize, fun hmany => absurd hmany (lt_irrefl 1)⟩

/-! ### A step -/

def ReactLoopOptions.limit (opts : ReactLoopOptions) : ℕ := opts.maxToolConcurrency.getD 5

/-- A step runs the calls in order in groups that are allowed, and ends with
one message for each. -/
def StepInGroups (opts : ReactLoopOptions) (iteration : ℕ) (response : LLMResponse) : Prop :=
  (∃ groups, runTools opts iteration response =
      runGroups (executeToolCall opts.jsonStringify opts.tools iteration) groups ∧
    groups.flatten = response.toolCalls.zipIdx ∧
    ∀ group ∈ groups, GroupAllowed opts.tools (ReactLoopOptions.limit opts) group) ∧
  ∃ results, (runTools opts iteration response).result = .ok results ∧
    List.Forall₂ (AnswersCall iteration) response.toolCalls (results.map ToolCallResult.message)

/-- The input schema of a tool that would run throws on the arguments. -/
def InputThrows (opts : ReactLoopOptions) (call : ToolCall) : Prop :=
  ∃ toolDef handler error, opts.tools.get? call.name = some toolDef ∧
    toolDef.handler = some handler ∧ toolDef.input call.arguments = .threw error

theorem executeToolCall_ok_iff (opts : ReactLoopOptions) (iteration : ℕ) (call : ToolCall × ℕ) :
    (∃ r, (executeToolCall opts.jsonStringify opts.tools iteration call).result = .ok r) ↔
      ¬ InputThrows opts call.1 := by
  unfold executeToolCall InputThrows
  dsimp only
  cases opts.tools.get? call.1.name with
  | none => exact iff_of_true ⟨_, rfl⟩ (by simp)
  | some toolDef =>
    dsimp only
    cases hhandler : toolDef.handler with
    | none => exact iff_of_true ⟨_, rfl⟩ (by simp [hhandler])
    | some handler =>
      dsimp only
      cases hinput : toolDef.input call.1.arguments with
      | threw error =>
        exact iff_of_false (by simp [Effects.throw]) (not_not.mpr ⟨_, _, _, rfl, hhandler, hinput⟩)
      | _ => exact iff_of_true ⟨_, rfl⟩ (by simp [hinput])

def echo : ToolDefinition := ⟨.ok, .ok, some fun _ => .ok, true, true⟩

def echoOptions (maxToolConcurrency : ℕ) : ReactLoopOptions where
  llm _ _ := .error "offline"
  jsonStringify _ := "{}"
  tools := ⟨[("echo", echo)], by simp⟩
  systemPrompt := ""
  userMessage := ""
  maxIterations := 1
  stuckThreshold := none
  previousMessages := none
  persistStep := none
  tokenBudget := none
  diminishingReturns := none
  maxToolConcurrency := some maxToolConcurrency
  contextCompression := none

end Vertz.Proofs
