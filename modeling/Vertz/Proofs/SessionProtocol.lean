import Vertz.Proofs.TurnMessages

/-!
# `Vertz.Proofs.SessionProtocol`: in which order a turn writes and calls

`Moves` is the protocol of a durable turn: the model is asked when no
call is open, its calls are written before their handlers run, and their
results are written together.
-/

namespace Vertz.Proofs

open Vertz.Lib
open Vertz.Agents
open Vertz.Spec.AgentSession List ReactLoop

/-! ### The protocol -/

/-- Where a turn is: no call is open, the model has replied, or calls are
written whose results are not. -/
inductive Phase where
  | idle
  | replied (ids : List String)
  /-- The handlers of `todo` have not run yet. -/
  | called (ids todo : List String)

/-- No stored call is open. -/
def Phase.resting : Phase → Prop
  | .idle => True
  | .replied _ => True
  | .called _ _ => False

inductive Moves : Phase → Event → Phase → Prop where
  | reply (messages : List Message) {response : LLMResponse}
      (hnamed : ∀ call ∈ response.toolCalls, Named call) :
      Moves .idle (.chat messages (.ok response)) (.replied (idsOf response.toolCalls))
  | failed (messages : List Message) (error : String) :
      Moves .idle (.chat messages (.error error)) .idle
  | compress (p : Phase) (messages result : List Message) : Moves p (.compress messages result) p
  | save (p : Phase) (userId tenantId : Option String) : Moves p (.saveSession userId tenantId) p
  | prune {p : Phase} (h : p.resting) (keepCount : ℕ) : Moves p (.pruneMessages keepCount) p
  | say {p : Phase} (h : p.resting) {batch : List Message} (hplain : ∀ m ∈ batch, Plain m)
      (userId tenantId : Option String) :
      Moves p (.appendMessagesAtomic batch userId tenantId) .idle
  | call {front : List Message} {m : Message} {calls : List ToolCall}
      (hfront : ∀ m ∈ front, Plain m) (hrole : m.role = .assistant)
      (hcalls : m.toolCalls = some calls) (hsome : calls ≠ [])
      (hnamed : ∀ call ∈ calls, Named call) (userId tenantId : Option String) :
      Moves (.replied (idsOf calls)) (.appendMessagesAtomic (front ++ [m]) userId tenantId)
        (.called (idsOf calls) (idsOf calls))
  | retry (ids todo : List String) (call : ToolCall) :
      Moves (.called ids todo) (.handler call true) (.called ids todo)
  | handle {ids skipped todo : List String} {call : ToolCall} {id : String}
      (hid : call.id = some id) :
      Moves (.called ids (skipped ++ id :: todo)) (.handler call false) (.called ids todo)
  | answer {ids todo : List String} {results : List Message}
      (hresults : ∀ m ∈ results, m.role = .tool ∧ m.toolCalls = none)
      (hids : results.map Message.toolCallId = ids.map some) (userId tenantId : Option String) :
      Moves (.called ids todo) (.appendMessagesAtomic results userId tenantId) .idle

/-! ### Calls -/

theorem idsOf_cons {call : ToolCall} {id : String} (hid : call.id = some id)
    (calls : List ToolCall) : idsOf (call :: calls) = id :: idsOf calls := filterMap_cons_some hid

theorem idsOf_append (calls calls' : List ToolCall) :
    idsOf (calls ++ calls') = idsOf calls ++ idsOf calls' := filterMap_append

theorem idsOf_map {calls : List ToolCall} (hnamed : ∀ call ∈ calls, Named call) :
    (idsOf calls).map some = calls.map ToolCall.id := by
  induction calls with
  | nil => rfl
  | cons call calls ih =>
    obtain ⟨id, hid, -⟩ := hnamed call (.head _)
    rw [idsOf_cons hid, map_cons, map_cons, hid,
      ih fun call hcall => hnamed call (.tail _ hcall)]

theorem answers_id {iteration : ℕ} {call : ToolCall} {m : Message} (h : AnswersCall iteration call m)
    (hnamed : Named call) : m.toolCallId = call.id := by
  obtain ⟨content, rfl⟩ := h
  obtain ⟨id, hid, -⟩ := hnamed
  show some (call.id.getD _) = call.id
  rw [hid]
  rfl

theorem answers_ids {iteration : ℕ} {calls : List ToolCall} {messages : List Message}
    (h : List.Forall₂ (AnswersCall iteration) calls messages)
    (hnamed : ∀ call ∈ calls, Named call) :
    (∀ m ∈ messages, m.role = .tool ∧ m.toolCalls = none) ∧
      messages.map Message.toolCallId = (idsOf calls).map some := by
  rw [idsOf_map hnamed]
  induction h with
  | nil => exact ⟨fun m hm => (nomatch hm), rfl⟩
  | @cons call m calls messages hone _ ih =>
    obtain ⟨hrest, hids⟩ := ih fun call hcall => hnamed call (.tail _ hcall)
    have hid := answers_id hone (hnamed call (.head _))
    obtain ⟨content, rfl⟩ := hone
    refine ⟨fun m hm => ?_, ?_⟩
    · rcases mem_cons.mp hm with rfl | hm
      · exact ⟨rfl, rfl⟩
      · exact hrest m hm
    · rw [map_cons, map_cons, hids, hid]

/-! ### Tools -/

/-- These calls are still to be made, before `rest`. -/
def Todo (ids rest : List String) (calls : List (ToolCall × ℕ)) (p : Phase) : Prop :=
  (∀ call ∈ calls, Named call.1) ∧
    ∃ skipped, p = .called ids (skipped ++ (idsOf (calls.map Prod.fst) ++ rest))

theorem execute_moves (jsonStringify : Js → String) (tools : Record ToolDefinition)
    (iteration : ℕ) {ids rest : List String} (call : ToolCall × ℕ)
    (calls : List (ToolCall × ℕ)) (p : Phase) (h : Todo ids rest (call :: calls) p) :
    ∃ p', Effects.Follow Moves p (executeToolCall jsonStringify tools iteration call).events p' ∧
      Todo ids rest calls p' := by
  obtain ⟨hnamed, skipped, rfl⟩ := h
  obtain ⟨id, hid, -⟩ := hnamed call (.head _)
  have hrest : ∀ call ∈ calls, Named call.1 := fun call hcall => hnamed call (.tail _ hcall)
  have hnext : ∀ p, p = .called ids (skipped ++ (idsOf ((call :: calls).map Prod.fst) ++ rest)) →
      Todo ids rest calls p := by
    rintro p rfl
    refine ⟨hrest, skipped ++ [id], ?_⟩
    rw [map_cons, idsOf_cons hid]
    simp
  obtain ⟨r, -, heq | ⟨toolDef, -, heq⟩⟩ :=
    executeToolCall_cases jsonStringify tools iteration call
  · rw [heq]
    refine ⟨_, ?_, hnext _ rfl⟩
    cases r <;> exact .nil _
  · have hevents : (executeToolCall jsonStringify tools iteration call).events =
        [.handler call.1 toolDef.safeToRetry] := by
      rw [heq, Effects.bind_perform]
      cases r <;> rfl
    rw [hevents]
    cases toolDef.safeToRetry with
    | true => exact ⟨_, .cons (.retry _ _ _) (.nil _), hnext _ rfl⟩
    | false =>
      rw [map_cons, idsOf_cons hid]
      exact ⟨_, .cons (.handle hid) (.nil _), hrest, [], rfl⟩

section

variable {execute : ToolCall × ℕ → Effects ToolCallResult} {ids : List String}

/-- What a call does to the protocol. -/
def Executes (execute : ToolCall × ℕ → Effects ToolCallResult) (ids : List String) : Prop :=
  ∀ (rest : List String) call calls p, Todo ids rest (call :: calls) p →
    ∃ p', Effects.Follow Moves p (execute call).events p' ∧ Todo ids rest calls p'

theorem runBatch_moves (h : Executes execute ids) (maxConcurrency : ℕ) {rest : List String}
    {batch : ToolCallBatch} {p : Phase} (htodo : Todo ids rest batch.calls p) :
    Effects.Guided Moves p (runBatch execute maxConcurrency batch)
      fun _ p' => Todo ids rest [] p' := by
  unfold runBatch
  split
  · unfold runConcurrentBatch
    split
    · exact .throw _
    · next hsize =>
        have hchunks : ∀ chunk chunks p, Todo ids rest (List.flatten (chunk :: chunks)) p →
            Effects.Guided Moves p (Effects.together execute chunk)
              fun _ p' => Todo ids rest (List.flatten chunks) p' := by
          rintro chunk chunks p ⟨hnamed, skipped, rfl⟩
          rw [flatten_cons] at hnamed
          have hchunk : Todo ids (idsOf ((List.flatten chunks).map Prod.fst) ++ rest) chunk
              (.called ids (skipped ++ (idsOf ((List.flatten (chunk :: chunks)).map Prod.fst) ++
                rest))) := by
            refine ⟨fun call hcall => hnamed call (mem_append_left _ hcall), skipped, ?_⟩
            rw [flatten_cons, map_append, idsOf_append, append_assoc]
          refine (Effects.Guided.together (h _) hchunk).imp ?_
          rintro - p' ⟨-, skipped', rfl⟩
          exact ⟨fun call hcall => hnamed call (mem_append_right _ hcall), skipped', rfl⟩
        have hall : Todo ids rest
            (inChunks maxConcurrency batch.calls.length batch.calls).flatten p := by
          rw [inChunks_flatten hsize _ _ le_rfl]
          exact htodo
        exact (Effects.Guided.each (J := fun chunks => Todo ids rest (List.flatten chunks))
          hchunks hall).bind fun _ _ hdone => .ret hdone
  · refine Effects.Guided.each (fun call calls p htodo => ?_) htodo
    obtain ⟨p', hfollow, hnext⟩ := h rest call calls p htodo
    exact ⟨p', hfollow, fun _ _ => hnext⟩

end

/-- The handlers run for the calls of the response, each at most once. -/
theorem runTools_moves (opts : ReactLoopOptions) (iteration : ℕ) {response : LLMResponse}
    (hnamed : ∀ call ∈ response.toolCalls, Named call) :
    Effects.Guided Moves (.called (idsOf response.toolCalls) (idsOf response.toolCalls))
      (runTools opts iteration response)
      fun _ p => ∃ todo, p = .called (idsOf response.toolCalls) todo := by
  let ids := idsOf response.toolCalls
  have hexecutes : Executes (executeToolCall opts.jsonStringify opts.tools iteration) ids :=
    fun rest => execute_moves opts.jsonStringify opts.tools iteration
  have hbatches : ∀ batch (batches : List ToolCallBatch) p,
      Todo ids [] ((batch :: batches).flatMap ToolCallBatch.calls) p →
        Effects.Guided Moves p (runBatch (executeToolCall opts.jsonStringify opts.tools iteration)
          (opts.maxToolConcurrency.getD 5) batch)
          fun _ p' => Todo ids [] (batches.flatMap ToolCallBatch.calls) p' := by
    rintro batch batches p ⟨hall, skipped, rfl⟩
    rw [flatMap_cons] at hall ⊢
    rw [map_append, idsOf_append, append_assoc]
    refine (runBatch_moves hexecutes _ ⟨fun call hcall => ?_, skipped, rfl⟩).imp ?_
    · exact hall call (mem_append_left _ hcall)
    · rintro - p' ⟨-, skipped', rfl⟩
      exact ⟨fun call hcall => hall call (mem_append_right _ hcall), skipped', rfl⟩
  have hstart : Todo ids [] ((partitionToolCalls opts.tools response.toolCalls.zipIdx).flatMap
      ToolCallBatch.calls) (.called ids ids) := by
    rw [partitionToolCalls_calls]
    refine ⟨fun call hcall => hnamed _ (fst_mem_of_mem_zipIdx hcall), [], ?_⟩
    rw [zipIdx_map_fst]
    simp [ids]
  refine (Effects.Guided.each
    (J := fun batches : List ToolCallBatch => Todo ids [] (batches.flatMap ToolCallBatch.calls))
    hbatches hstart).bind fun results p hdone => ?_
  obtain ⟨-, skipped, rfl⟩ := hdone
  exact .ret ⟨_, rfl⟩

/-! ### The loop -/

/-- What holds of the state of a loop that goes on, after `n` messages of
the history. -/
structure Going (n : ℕ) (st : LoopState) : Prop where
  headed : ∃ m rest, st.messages = m :: rest ∧ m.role = .system
  length : (nonSystem st.messages).length ≤
    n + if st.persisted.userPersisted then st.persisted.writtenByLoop else 1
  ends : st.persisted.userPersisted = false → EndsPlain st.messages
  fresh : st.persisted.userPersisted = false → st.persisted.writtenByLoop = 0

theorem getLast?_of_mem_drop {α : Type} {as : List α} {n : ℕ} (hlength : as.length ≤ n + 1)
    {a : α} (ha : a ∈ as.drop n) : as.getLast? = some a := by
  have hone : as.drop n = [a] := by
    have hshort : (as.drop n).length ≤ 1 := by
      rw [length_drop]
      omega
    cases hdrop : as.drop n with
    | nil =>
      rw [hdrop] at ha
      cases ha
    | cons b bs =>
      rw [hdrop] at ha hshort
      cases bs with
      | nil => rw [mem_singleton.mp ha]
      | cons c cs =>
        simp only [length_cons] at hshort
        omega
  rw [← take_append_drop n as, hone]
  exact getLast?_concat

/-- What is written at the end holds no calls and no results. -/
theorem going_tail {n : ℕ} {st : LoopState} (h : Going n st) {result : LoopResult}
    (text : List Message) (hmessages : nonSystem result.messages = nonSystem st.messages ++ text)
    (hplain : ∀ m ∈ text, Plain m) (hshort : text.length ≤ 1)
    {previousMessages : Option (List Message)} (hn : (previousMessages.getD []).length = n) :
    ∀ m ∈ unpersistedTail previousMessages result st.persisted, Plain m := by
  intro m hm
  have hlength := h.length
  unfold unpersistedTail at hm
  rw [hn, hmessages] at hm
  dsimp only at hm
  cases huser : st.persisted.userPersisted with
  | true =>
    rw [huser] at hm hlength
    have hnone : (((nonSystem st.messages ++ text).drop n).drop
        (st.persisted.writtenByLoop + 1)).length = 0 := by
      rw [length_drop, length_drop, length_append]
      simp only [if_true] at hlength
      omega
    simp only [if_true, eq_nil_of_length_eq_zero hnone] at hm
    cases hm
  | false =>
    rw [huser] at hm hlength
    simp only [Bool.false_eq_true, if_false] at hm hlength
    rw [drop_append] at hm
    rcases mem_append.mp hm with hm | hm
    · exact h.ends huser m (getLast?_of_mem_drop hlength hm)
    · exact hplain m (mem_of_mem_drop hm)

theorem Going.counted {n : ℕ} {st st' : LoopState} (h : Going n st) (hcounted : Counted st st') :
    Going n st' ∧ nonSystem st'.messages = nonSystem st.messages := by
  obtain ⟨warnings, hmessages, hwarnings⟩ := hcounted.messages
  have hsame : nonSystem st'.messages = nonSystem st.messages := by
    rw [hmessages, nonSystem_append, hwarnings, append_nil]
  obtain ⟨m, rest, hheaded, hsystem⟩ := h.headed
  refine ⟨⟨⟨m, rest ++ warnings, ?_, hsystem⟩, ?_, fun huser => ?_, fun huser => ?_⟩, hsame⟩
  · rw [hmessages, hheaded]
    rfl
  · rw [hsame, hcounted.persisted]
    exact h.length
  · unfold EndsPlain
    rw [hsame]
    exact h.ends (hcounted.persisted ▸ huser)
  · rw [hcounted.persisted] at huser ⊢
    exact h.fresh huser

/-- How a pass of the loop ends. -/
def PassKept (n : ℕ) : ReactLoop.Pass → Phase → Prop
  | .inl st, p => p = .idle ∧ Going n st
  | .inr (result, persisted), p => p.resting ∧ (result.status ≠ .error →
      ∀ previousMessages : Option (List Message), (previousMessages.getD []).length = n →
        ∀ m ∈ unpersistedTail previousMessages result persisted, Plain m)

section

variable {opts : ReactLoopOptions} {runOpts : RunOptions} {n : ℕ} {st : LoopState}

theorem compressContext_keeps (p : Phase) (iteration : ℕ) (h : Going n st) :
    Effects.Keeps Fits Moves p (compressContext opts iteration st)
      fun st' p' => p' = p ∧ Going n st' := by
  unfold compressContext
  split
  · exact .ret ⟨rfl, h⟩
  · split
    · refine (Effects.Keeps.ofExcept fun _ _ => rfl :
        Effects.Keeps Fits Moves p _ fun _ p' => p' = p).bind ?_
      rintro compressed p' rfl
      refine (Effects.Keeps.perform fun hfits => ⟨_, .compress _ _ _, rfl, hfits⟩ :
        Effects.Keeps Fits Moves p' _ fun _ p'' => p'' = p' ∧
          Fits (.compress (st.messages.drop 1) compressed)).bind ?_
      rintro - p'' ⟨rfl, hshorter, hends⟩
      split
      · exact .throw _
      · obtain ⟨m, rest, hmessages, hsystem⟩ := h.headed
        have hgiven : nonSystem (st.messages.drop 1) = nonSystem st.messages := by
          rw [hmessages]
          simp [nonSystem, hsystem]
        have hcompressed : nonSystem (st.messages.take 1 ++ compressed) = nonSystem compressed := by
          rw [nonSystem_append, hmessages]
          simp [nonSystem, hsystem]
        rw [hgiven] at hshorter
        refine .ret ⟨rfl, ⟨m, compressed, by rw [hmessages]; rfl, hsystem⟩, ?_, fun huser => ?_,
          h.fresh⟩
        · show (nonSystem (st.messages.take 1 ++ compressed)).length ≤ _
          rw [hcompressed]
          exact hshorter.trans h.length
        · show EndsPlain (st.messages.take 1 ++ compressed)
          unfold EndsPlain at hends ⊢
          rw [hcompressed]
          rw [hgiven] at hends
          exact hends (h.ends huser)
    · exact .ret ⟨rfl, h⟩

theorem plain_user (text : String) : Plain (.plain .user text) := ⟨rfl, nofun⟩

theorem plain_assistant (text : String) : Plain (.plain .assistant text) := ⟨rfl, nofun⟩

theorem stopText_plain (response : LLMResponse) :
    ∀ m ∈ stopText response, Plain m := by
  intro m hm
  unfold stopText at hm
  split at hm
  · cases hm
  · rw [mem_singleton.mp hm]
    exact plain_assistant _

theorem stopText_length (response : LLMResponse) :
    (stopText response).length ≤ 1 := by
  unfold stopText
  split
  · exact Nat.zero_le _
  · exact le_rfl

/-- The batch of a step: the message of the user comes first. -/
def batchOf (opts : RunOptions) (persisted : Persisted) (newMessages : List Message) :
    List Message :=
  (if persisted.userPersisted then [] else [.plain .user opts.message]) ++ newMessages

theorem persist_moves (hdurable : Durable opts runOpts) {persisted : Persisted}
    {newMessages : List Message} {p p' : Phase}
    (hmove : Moves p (.appendMessagesAtomic (batchOf runOpts persisted newMessages)
      runOpts.userId runOpts.tenantId) p') :
    Effects.Guided Moves p (persist opts persisted newMessages)
      fun persisted' p'' => p'' = p' ∧
        persisted' = ⟨true, persisted.writtenByLoop +
          (batchOf runOpts persisted newMessages).length⟩ := by
  unfold persist
  rw [hdurable.step]
  have hbatch : (if persisted.userPersisted then newMessages
      else .plain .user runOpts.message :: newMessages) =
        batchOf runOpts persisted newMessages := by
    unfold batchOf
    cases persisted.userPersisted <;> rfl
  show Effects.Guided Moves p (persistStep runOpts persisted newMessages) _
  unfold persistStep
  rw [hbatch]
  refine (Effects.Guided.perform hmove rfl :
    Effects.Guided Moves p _ fun _ p'' => p'' = p').bind ?_
  rintro - p'' rfl
  exact .ret ⟨rfl, rfl⟩

theorem toolStep_moves (hdurable : Durable opts runOpts) (iteration : ℕ) (h : Going n st)
    {response : LLMResponse} (hsome : response.toolCalls ≠ [])
    (hnamed : ∀ call ∈ response.toolCalls, Named call) :
    Effects.Guided Moves (.replied (idsOf response.toolCalls))
      (toolStep opts iteration st response) (PassKept n) := by
  let assistant := assistantWithToolCalls response
  have hcall : Moves (.replied (idsOf response.toolCalls))
      (.appendMessagesAtomic (batchOf runOpts st.persisted [assistant])
        runOpts.userId runOpts.tenantId)
      (.called (idsOf response.toolCalls) (idsOf response.toolCalls)) := by
    refine .call ?_ rfl rfl hsome hnamed _ _
    intro m hm
    split at hm
    · cases hm
    · rw [mem_singleton.mp hm]
      exact plain_user _
  refine (persist_moves hdurable hcall).bind ?_
  rintro persisted p ⟨rfl, rfl⟩
  refine (runTools_moves opts iteration hnamed).and_result.bind ?_
  rintro results p ⟨⟨todo, rfl⟩, hresults⟩
  have hanswers := runTools_messages hresults
  obtain ⟨htool, hids⟩ := answers_ids hanswers hnamed
  have hcount : (results.map ToolCallResult.message).length = response.toolCalls.length :=
    hanswers.length_eq.symm
  have hnone : (results.map ToolCallResult.message).isEmpty = false := by
    rw [isEmpty_eq_false_iff]
    intro hnil
    rw [hnil] at hcount
    exact hsome (eq_nil_of_length_eq_zero hcount.symm)
  dsimp only
  rw [hnone]
  refine (persist_moves hdurable (.answer htool hids _ _)).bind ?_
  rintro persisted p ⟨rfl, rfl⟩
  have hgoing : ∀ noProgress, Going n
      { st with
        messages := st.messages ++ assistant :: results.map ToolCallResult.message
        consecutiveNoProgress := noProgress
        persisted := ⟨true, st.persisted.writtenByLoop +
          (batchOf runOpts st.persisted [assistant]).length +
            (results.map ToolCallResult.message).length⟩ } := by
    intro noProgress
    obtain ⟨m, rest, hmessages, hsystem⟩ := h.headed
    refine ⟨⟨m, _, by simp only [hmessages, cons_append]; rfl, hsystem⟩, ?_,
      fun huser => (nomatch huser), fun huser => (nomatch huser)⟩
    have hsaid : nonSystem (assistant :: results.map ToolCallResult.message) =
        assistant :: results.map ToolCallResult.message := by
      rw [← singleton_append, nonSystem_append, nonSystem_of_answers hanswers]
      rfl
    have hlength := h.length
    have hfresh := h.fresh
    show (nonSystem (st.messages ++ assistant :: results.map ToolCallResult.message)).length ≤ _
    rw [nonSystem_append, hsaid, length_append, length_cons]
    unfold batchOf
    cases huser : st.persisted.userPersisted with
    | true =>
      rw [huser] at hlength
      simp only [if_true, nil_append, length_singleton] at hlength ⊢
      omega
    | false =>
      rw [huser] at hlength
      simp only [if_true, Bool.false_eq_true, if_false, length_append,
        length_singleton] at hlength ⊢
      omega
  refine .ret ?_
  generalize (if results.any ToolCallResult.success then 0
    else st.consecutiveNoProgress + 1) = noProgress
  cases isStuck opts noProgress with
  | true =>
    refine ⟨trivial, fun _ previousMessages hn => ?_⟩
    exact going_tail (hgoing noProgress) [] (append_nil _).symm (fun m hm => nomatch hm)
      (Nat.zero_le _) hn
  | false => exact ⟨rfl, hgoing noProgress⟩

theorem respond_keeps (hdurable : Durable opts runOpts) (iteration : ℕ) (h : Going n st)
    {response : LLMResponse} (hnamed : ∀ call ∈ response.toolCalls, Named call) :
    Effects.Keeps Fits Moves (.replied (idsOf response.toolCalls))
      (respond opts iteration st response) (PassKept n) := by
  have hcounted := trackUsage_counted opts st response
  unfold respond
  rcases htrack : trackUsage opts st response with ⟨st', status | status⟩
  · rw [htrack] at hcounted
    obtain ⟨hgoing, -⟩ := h.counted hcounted
    dsimp only
    split
    · refine .ret ⟨trivial, fun _ previousMessages hn => ?_⟩
      refine going_tail hgoing [.plain .assistant response.text] (nonSystem_append ..)
        (fun m hm => ?_) le_rfl hn
      rw [mem_singleton.mp hm]
      exact plain_assistant _
    · next hcalls =>
        have hsome : response.toolCalls ≠ [] := fun hnil => hcalls (isEmpty_iff.mpr hnil)
        exact (toolStep_moves hdurable iteration hgoing hsome hnamed).keeps
  · rw [htrack] at hcounted
    obtain ⟨hgoing, -⟩ := h.counted hcounted
    refine .ret ⟨trivial, fun _ previousMessages hn => ?_⟩
    refine going_tail hgoing (stopText response) ?_ (stopText_plain response)
      (stopText_length response) hn
    show nonSystem (st'.messages ++ stopText response) = _
    rw [nonSystem_append, nonSystem_stopText]

theorem iterate_keeps (hdurable : Durable opts runOpts) (iteration : ℕ) (h : Going n st) :
    Effects.Keeps Fits Moves .idle (iterate opts iteration st) (PassKept n) := by
  unfold ReactLoop.iterate
  refine (compressContext_keeps .idle iteration h).bind ?_
  rintro st' p ⟨rfl, hgoing⟩
  cases hreply : opts.llm iteration st'.messages with
  | error error =>
    refine (Effects.Keeps.perform fun _ => ⟨_, .failed _ _, rfl⟩ :
      Effects.Keeps Fits Moves _ _ fun _ p => p = .idle).bind ?_
    rintro - p rfl
    exact .ret ⟨trivial, fun herror => absurd rfl herror⟩
  | ok response =>
    refine (Effects.Keeps.perform fun hfits => ⟨_, .reply _ hfits, rfl, hfits⟩ :
      Effects.Keeps Fits Moves _ _ fun _ p => p = .replied (idsOf response.toolCalls) ∧
        ∀ call ∈ response.toolCalls, Named call).bind ?_
    rintro - p ⟨rfl, hnamed⟩
    exact respond_keeps hdurable iteration hgoing hnamed

theorem loop_keeps (hdurable : Durable opts runOpts) (left iteration : ℕ) (h : Going n st) :
    Effects.Keeps Fits Moves .idle (loop opts left iteration st)
      fun ended p => PassKept n (.inr ended) p := by
  induction left generalizing iteration st with
  | zero =>
    refine .ret ⟨trivial, fun _ previousMessages hn => ?_⟩
    exact going_tail h [] (append_nil _).symm (fun m hm => nomatch hm) (Nat.zero_le _) hn
  | succ left ih =>
    refine (iterate_keeps hdurable (iteration + 1) h).bind ?_
    rintro (st' | ended) p hpass
    · obtain ⟨rfl, hgoing⟩ := hpass
      exact ih (iteration + 1) hgoing
    · exact .ret hpass

end

theorem nonSystem_length_le (ms : List Message) : (nonSystem ms).length ≤ ms.length :=
  length_filter_le ..

theorem going_initialState (opts : ReactLoopOptions) :
    Going (opts.previousMessages.getD []).length (initialState opts) := by
  have hmessages : nonSystem (initialState opts).messages =
      nonSystem (opts.previousMessages.getD []) ++ [.plain .user opts.userMessage] := by
    unfold initialState
    show nonSystem (_ ++ _) = _
    exact nonSystem_append ..
  refine ⟨⟨_, _, rfl, rfl⟩, ?_, fun _ => ?_, fun _ => rfl⟩
  · rw [hmessages, length_append]
    exact Nat.add_le_add_right (nonSystem_length_le _) 1
  · unfold EndsPlain
    rw [hmessages, getLast?_concat]
    intro m hm
    rw [← Option.some.inj hm]
    exact plain_user _

/-! ### A turn -/

section

variable (json : Json) (agent : AgentDefinition) (opts : RunOptions)

/-- The end of a turn. -/
theorem runLoop_keeps (hstore : opts.store = .sqlite)
    (previousMessages : Option (List Message)) :
    Effects.Keeps Fits Moves .idle (runLoop json agent opts previousMessages)
      fun _ p => p.resting := by
  have hdurable : Durable (loopOptions json agent opts previousMessages) opts := by
    refine ⟨?_, rfl⟩
    unfold loopOptions durable
    rw [hstore]
    rfl
  have hstored : durable opts = true := by
    unfold durable
    rw [hstore]
    rfl
  refine (loop_keeps hdurable agent.maxIterations 0
    (going_initialState (loopOptions json agent opts previousMessages))).bind ?_
  rintro ⟨result, persisted⟩ p hpass
  refine (Effects.Keeps.ofExcept fun _ _ => rfl :
    Effects.Keeps Fits Moves p _ fun _ p' => p' = p).bind ?_
  rintro - p' rfl
  refine (Effects.Keeps.ofExcept fun _ _ => rfl :
    Effects.Keeps Fits Moves p' _ fun _ p'' => p'' = p').bind ?_
  rintro valid p'' rfl
  obtain ⟨hresting, htail⟩ := hpass
  split
  · split
    · exact .ret hresting
    · next herror =>
        have hplain := htail fun hstatus => herror (beq_iff_eq.mpr hstatus)
        refine Effects.Keeps.bind (Q := fun _ p => p.resting) ?_ fun _ _ hresting => .ret hresting
        unfold persistDurable
        refine Effects.Keeps.bind (Q := fun _ p => p.resting) ?_ fun _ p hresting => ?_
        · split
          · exact .perform fun _ => ⟨_, .save _ _ _, hresting⟩
          · exact .perform fun _ => ⟨_, .say hresting (hplain _ rfl) _ _, trivial⟩
        · unfold pruneStored
          split
          · exact .ret hresting
          · exact .perform fun _ => ⟨_, .prune hresting _, hresting⟩
  · exact .ret hresting

/-- The calls that a resumed turn finds open are those the session waits
for. -/
def Resumable (p : Phase) (history : List Message) : Prop :=
  p = .idle ∧ findOrphanAssistantWithToolCalls history = [] ∨
    ∃ calls, calls ≠ [] ∧ (∀ call ∈ calls, Named call) ∧ p = .called (idsOf calls) [] ∧
      findOrphanAssistantWithToolCalls history = calls

theorem resumeCall_answers (tools : Record ToolDefinition) {call : ToolCall × ℕ}
    (hnamed : Named call.1) {m : Message} (h : (resumeCall json tools call).result = .ok m) :
    AnswersCall 0 call.1 m := by
  unfold resumeCall at h
  split at h
  · obtain ⟨result, hresult, hret, -⟩ := Effects.bind_ok h
    cases hret
    exact executeToolCall_answers hresult
  · cases h
    obtain ⟨id, hid, -⟩ := hnamed
    have hsame : callId 0 call.1 = call.1.id.getD "" := by
      unfold callId
      rw [hid]
      rfl
    unfold AnswersCall
    rw [hsame]
    exact ⟨_, rfl⟩

/-- Only handlers that are safe to retry run again. -/
theorem resumeCall_moves (tools : Record ToolDefinition) (ids : List String)
    (call : ToolCall × ℕ) :
    Effects.Guided Moves (.called ids []) (resumeCall json tools call)
      fun _ p => p = .called ids [] := by
  unfold resumeCall
  split
  · next hsafe =>
      refine Effects.Guided.bind (Q := fun _ p => p = .called ids []) ?_ fun _ p hp => .ret hp
      obtain ⟨r, -, heq | ⟨toolDef, htool, heq⟩⟩ :=
        executeToolCall_cases json.stringify tools 0 call
      · rw [heq]
        exact .ofExcept fun _ _ => rfl
      · rw [heq]
        rw [htool] at hsafe
        have hretry : toolDef.safeToRetry = true := hsafe
        rw [hretry]
        exact (Effects.Guided.perform (.retry _ _ _) rfl :
          Effects.Guided Moves _ _ fun _ p => p = .called ids []).bind
            fun _ p hp => .ofExcept fun _ _ => hp
  · exact .ret rfl

/-- What a crashed turn left open is answered first. -/
theorem answerOrphan_moves (hstore : opts.store = .sqlite) {history : List Message} {p : Phase}
    (h : Resumable p history) :
    Effects.Guided Moves p (answerOrphan json agent opts (some history))
      fun _ p' => p' = .idle := by
  have hstored : durable opts = true := by
    unfold durable
    rw [hstore]
    rfl
  unfold answerOrphan
  dsimp only
  rw [if_pos hstored]
  rcases h with ⟨rfl, hnone⟩ | ⟨calls, hsome, hnamed, rfl, hcalls⟩
  · rw [hnone]
    exact .ret rfl
  · rw [hcalls]
    cases calls with
    | nil => exact absurd rfl hsome
    | cons first others =>
      let calls := first :: others
      refine (Effects.Guided.each (J := fun _ p => p = .called (idsOf calls) [])
        (fun call _ p hp => ?_) rfl).and_result.bind ?_
      · rw [hp]
        exact resumeCall_moves json _ _ call
      · rintro results p ⟨rfl, hresults⟩
        have hanswers : List.Forall₂ (AnswersCall 0) calls results := by
          rw [← zipIdx_map_fst 0 calls, forall₂_map_left_iff]
          refine forall₂_iff_get.mpr ⟨(Effects.each_ok hresults).length_eq, ?_⟩
          intro n hn hn'
          have hmem := fst_mem_of_mem_zipIdx (get_mem calls.zipIdx ⟨n, hn⟩)
          exact resumeCall_answers json _ (hnamed _ hmem)
            ((forall₂_iff_get.mp (Effects.each_ok hresults)).2 n hn hn')
        obtain ⟨htool, hids⟩ := answers_ids hanswers hnamed
        exact (Effects.Guided.perform (.answer htool hids _ _) rfl :
          Effects.Guided Moves _ _ fun _ p => p = .idle).bind fun _ p hp => .ret hp

theorem run_keeps (hstore : opts.store = .sqlite) {session : StoredSession} {p : Phase}
    (h : Resumable p session.messages) (hnew : opts.sessionId = none → p = .idle) :
    Effects.Keeps Fits Moves p (run json agent opts session) fun _ p' => p'.resting := by
  have hload : Effects.Guided Moves p (loadPrevious opts session)
      fun previousMessages p' => p' = p ∧
        (previousMessages = none ∧ opts.sessionId = none ∨
          previousMessages = some session.messages) := by
    unfold loadPrevious
    split
    · next hnone => exact .ret ⟨rfl, .inl ⟨rfl, hnone⟩⟩
    · rw [hstore]
      dsimp only
      split
      · exact .throw _
      · split
        · exact .throw _
        · exact .ret ⟨rfl, .inr rfl⟩
  refine hload.keeps.bind ?_
  rintro previousMessages p' ⟨rfl, hprevious⟩
  refine (Effects.Keeps.ofExcept fun _ _ => rfl :
    Effects.Keeps Fits Moves p' _ fun _ p'' => p'' = p').bind ?_
  rintro - p'' rfl
  have hanswer : Effects.Guided Moves p'' (answerOrphan json agent opts previousMessages)
      fun _ p' => p' = .idle := by
    rcases hprevious with ⟨rfl, hnone⟩ | rfl
    · exact .ret (hnew hnone)
    · exact answerOrphan_moves json agent opts hstore h
  refine hanswer.keeps.bind ?_
  rintro previousMessages' p rfl
  exact runLoop_keeps json agent opts hstore previousMessages'

end

end Vertz.Proofs
