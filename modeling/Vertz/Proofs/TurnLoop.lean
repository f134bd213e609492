import Vertz.Proofs.ToolCalls
import Vertz.Spec.AgentRuns

/-!
# `Vertz.Proofs.TurnLoop`: the messages of a durable loop
-/

namespace Vertz.Proofs

open Vertz.Lib
open Vertz.Agents
open Vertz.Spec.AgentTurn List ReactLoop

/-! ### Replies -/

section

variable (opts : ReactLoopOptions) (replies : List (Except String LLMResponse))

theorem talk_snoc (reply : Except String LLMResponse) :
    talk opts (replies ++ [reply]) = talk opts replies ++
      match reply with
      | .ok response => exchange opts (replies.length + 1) response
      | .error _ => [] := by
  unfold talk exchanges
  rw [zipIdx_append, flatMap_append]
  cases reply <;> simp

theorem counted_snoc (response : LLMResponse) :
    counted opts (replies ++ [.ok response]) =
      (trackUsage opts (counted opts replies) response).1 := by
  unfold counted
  rw [foldl_append]
  rfl

theorem ending_snoc (response : LLMResponse) :
    ending opts (replies ++ [.ok response]) = lastWords opts replies response := by
  unfold ending
  rw [getLast?_concat, dropLast_concat]

variable {opts replies}

theorem exchanged_of_going (h : ending opts replies = none) :
    exchanged opts replies = replies := by
  unfold exchanged
  rw [h]
  rfl

theorem closing_of_going (h : ending opts replies = none) : closing opts replies = [] := by
  unfold closing
  rw [h]
  rfl

theorem exchanged_of_ended {reply : Except String LLMResponse} {text : List Message}
    (h : ending opts (replies ++ [reply]) = some text) :
    exchanged opts (replies ++ [reply]) = replies := by
  unfold exchanged
  rw [h]
  exact dropLast_concat

theorem closing_of_ended {text : List Message} (h : ending opts replies = some text) :
    closing opts replies = text := by
  unfold closing
  rw [h]
  rfl

end

/-! ### Counting tokens -/

/-- The counters of two states are the same. -/
structure SameCounters (st st' : LoopState) : Prop where
  input : st.totalInputTokens = st'.totalInputTokens
  output : st.totalOutputTokens = st'.totalOutputTokens
  warning : st.warningSent = st'.warningSent
  lowDelta : st.consecutiveLowDelta = st'.consecutiveLowDelta
  previous : st.previousTotalTokens = st'.previousTotalTokens

section

variable (opts : ReactLoopOptions)

theorem checkBudget_same {st st' : LoopState} (h : SameCounters st st') :
    (checkBudget opts st).2 = (checkBudget opts st').2 ∧
      SameCounters (checkBudget opts st).1 (checkBudget opts st').1 := by
  unfold checkBudget
  cases opts.tokenBudget with
  | none => exact ⟨rfl, h⟩
  | some budget =>
    have hused := congrArg₂ (· + ·) h.input h.output
    simp only at hused ⊢
    simp only [hused, h.warning]
    split
    · exact ⟨rfl, h⟩
    · split
      · exact ⟨rfl, h.input, h.output, rfl, h.lowDelta, h.previous⟩
      · exact ⟨rfl, h⟩

theorem checkReturns_same {st st' : LoopState} (h : SameCounters st st') :
    (checkReturns opts st).2 = (checkReturns opts st').2 ∧
      SameCounters (checkReturns opts st).1 (checkReturns opts st').1 := by
  unfold checkReturns
  cases opts.diminishingReturns with
  | none => exact ⟨rfl, h⟩
  | some config =>
    have hused := congrArg₂ (· + ·) h.input h.output
    simp only at hused ⊢
    simp only [hused, h.previous, h.lowDelta]
    split
    · split
      · exact ⟨rfl, h.input, h.output, h.warning, rfl, rfl⟩
      · exact ⟨rfl, h.input, h.output, h.warning, rfl, rfl⟩
    · exact ⟨rfl, h.input, h.output, h.warning, rfl, rfl⟩

theorem trackUsage_same {st st' : LoopState} (h : SameCounters st st') (response : LLMResponse) :
    (trackUsage opts st response).2 = (trackUsage opts st' response).2 ∧
      SameCounters (trackUsage opts st response).1
        (trackUsage opts st' response).1 := by
  unfold trackUsage
  cases response.usage with
  | none => exact ⟨rfl, h⟩
  | some usage =>
    simp only
    have hadd : SameCounters
        { st with
          totalInputTokens := st.totalInputTokens + usage.inputTokens
          totalOutputTokens := st.totalOutputTokens + usage.outputTokens }
        { st' with
          totalInputTokens := st'.totalInputTokens + usage.inputTokens
          totalOutputTokens := st'.totalOutputTokens + usage.outputTokens } :=
      ⟨congrArg (· + usage.inputTokens) h.input, congrArg (· + usage.outputTokens) h.output,
        h.warning, h.lowDelta, h.previous⟩
    obtain ⟨hstatus, hstate⟩ := checkBudget_same opts hadd
    generalize checkBudget opts _ = budget at hstatus hstate ⊢
    generalize checkBudget opts _ = budget' at hstatus hstate ⊢
    obtain ⟨st, status⟩ := budget
    obtain ⟨st', status'⟩ := budget'
    cases hstatus
    cases status with
    | some status => exact ⟨rfl, hstate⟩
    | none => exact checkReturns_same opts hstate

/-- What counting leaves alone: only a warning is added. -/
structure Counted (st st' : LoopState) : Prop where
  persisted : st'.persisted = st.persisted
  noProgress : st'.consecutiveNoProgress = st.consecutiveNoProgress
  messages : ∃ warnings, st'.messages = st.messages ++ warnings ∧ nonSystem warnings = []

theorem checkBudget_counted (st : LoopState) :
    Counted st (checkBudget opts st).1 := by
  have hnone : Counted st st := ⟨rfl, rfl, [], (append_nil _).symm, rfl⟩
  unfold checkBudget
  split
  · exact hnone
  · simp only
    split
    · exact hnone
    · split
      · exact ⟨rfl, rfl, _, rfl, rfl⟩
      · exact hnone

theorem checkReturns_counted (st : LoopState) :
    Counted st (checkReturns opts st).1 := by
  unfold checkReturns
  split
  · exact ⟨rfl, rfl, [], (append_nil _).symm, rfl⟩
  · simp only
    split
    · split <;> exact ⟨rfl, rfl, [], (append_nil _).symm, rfl⟩
    · exact ⟨rfl, rfl, [], (append_nil _).symm, rfl⟩

theorem Counted.trans {st st' st'' : LoopState} (h : Counted st st') (h' : Counted st' st'') :
    Counted st st'' := by
  obtain ⟨ws, hmessages, hws⟩ := h.messages
  obtain ⟨ws', hmessages', hws'⟩ := h'.messages
  refine ⟨h'.persisted.trans h.persisted, h'.noProgress.trans h.noProgress, ws ++ ws', ?_, ?_⟩
  · rw [hmessages', hmessages, append_assoc]
  · rw [nonSystem_append, hws, hws']
    rfl

theorem trackUsage_counted (st : LoopState) (response : LLMResponse) :
    Counted st (trackUsage opts st response).1 := by
  unfold trackUsage
  cases response.usage with
  | none => exact ⟨rfl, rfl, [], (append_nil _).symm, rfl⟩
  | some usage =>
    simp only
    have hbudget := checkBudget_counted opts
      { st with
        totalInputTokens := st.totalInputTokens + usage.inputTokens
        totalOutputTokens := st.totalOutputTokens + usage.outputTokens }
    generalize checkBudget opts _ = budget at hbudget ⊢
    obtain ⟨st', status⟩ := budget
    cases status with
    | some status => exact ⟨hbudget.persisted, hbudget.noProgress, hbudget.messages⟩
    | none =>
      have hall := Counted.trans hbudget (checkReturns_counted opts st')
      exact ⟨hall.persisted, hall.noProgress, hall.messages⟩

end

/-! ### One pass -/

/-- The step of observing an event. -/
def Sees (opts : ReactLoopOptions) (o : Observed) (e : Event) (o' : Observed) : Prop :=
  o' = observe opts o e

/-- What the loop has written of these replies. -/
def Noted (opts : ReactLoopOptions) (replies : List (Except String LLMResponse))
    (persisted : Persisted) (written : List Message) : Prop :=
  if replies = [] then persisted = ⟨false, 0⟩ ∧ written = []
  else persisted = ⟨true, written.length⟩ ∧ written = talk opts replies

/-- What holds when a pass of the loop begins. -/
structure Told (opts : ReactLoopOptions) (passes : ℕ) (st : LoopState) (o : Observed) : Prop where
  count : o.replies.length = passes
  counters : SameCounters st (counted opts o.replies)
  kept : ∃ since, nonSystem st.messages = nonSystem o.base ++ since ∧
    talk opts o.replies = o.heard ++ since
  headed : ∃ m rest, st.messages = m :: rest ∧ m.role = .system
  heard : o.heard ≠ []
  noted : Noted opts o.replies st.persisted o.written
  going : ending opts o.replies = none

/-- What holds when the loop has ended. -/
structure Ended (opts : ReactLoopOptions) (result : LoopResult) (persisted : Persisted)
    (o : Observed) : Prop where
  kept : ∃ since,
    nonSystem result.messages = nonSystem o.base ++ since ++ closing opts o.replies ∧
      talk opts (exchanged opts o.replies) = o.heard ++ since
  heard : o.heard ≠ []
  noted : Noted opts (exchanged opts o.replies) persisted o.written

/-- The loop writes as the durable store asks it to. -/
structure Durable (opts : ReactLoopOptions) (runOpts : RunOptions) : Prop where
  step : opts.persistStep = some (persistStep runOpts)
  message : opts.userMessage = runOpts.message

section

variable {opts : ReactLoopOptions} {runOpts : RunOptions} {passes : ℕ} {st : LoopState}
  {o : Observed}

theorem told_initialState (opts : ReactLoopOptions) :
    Told opts 0 (initialState opts)
      ⟨[], opts.previousMessages.getD [] ++ [.plain .user opts.userMessage], talk opts [], []⟩
    where
  count := rfl
  counters := ⟨rfl, rfl, rfl, rfl, rfl⟩
  kept := ⟨[], (append_nil _).symm, (append_nil _).symm⟩
  headed := ⟨_, _, rfl, rfl⟩
  heard := cons_ne_nil _ _
  noted := ⟨rfl, rfl⟩
  going := rfl

/-- After a compression what was said stands for the messages. -/
theorem told_compressContext (iteration : ℕ) (h : Told opts passes st o) :
    Effects.Guided (Sees opts) o (compressContext opts iteration st)
      fun st' o' => Told opts passes st' o' := by
  unfold compressContext
  split
  · exact .ret h
  · split
    · refine (Effects.Guided.ofExcept fun _ _ => rfl :
        Effects.Guided (Sees opts) o _ fun _ o' => o' = o).bind ?_
      rintro compressed o' rfl
      refine (Effects.Guided.perform rfl rfl : Effects.Guided (Sees opts) _ _
        fun _ o' => o' = observe opts _ (.compress (st.messages.drop 1) compressed)).bind ?_
      rintro - o' rfl
      split
      · exact .throw _
      · obtain ⟨m, rest, hmessages, hsystem⟩ := h.headed
        have hcompressed : nonSystem (st.messages.take 1 ++ compressed) = nonSystem compressed := by
          rw [nonSystem_append, hmessages]
          simp [nonSystem, hsystem]
        exact .ret
          { count := h.count
            counters := ⟨h.counters.input, h.counters.output, h.counters.warning,
              h.counters.lowDelta, h.counters.previous⟩
            kept := ⟨[], by rw [hcompressed]; exact (append_nil _).symm,
              (append_nil _).symm⟩
            headed := ⟨m, compressed, by rw [hmessages]; rfl, hsystem⟩
            heard := cons_ne_nil _ _
            noted := h.noted
            going := h.going }
    · exact .ret h

/-- What holds at the end of a pass. -/
def PassTold (opts : ReactLoopOptions) (passes : ℕ) : ReactLoop.Pass → Observed → Prop
  | .inl st, o => Told opts passes st o
  | .inr (result, persisted), o => result.status ≠ .error → Ended opts result persisted o

theorem guided_persist (hdurable : Durable opts runOpts) (o : Observed) (persisted : Persisted)
    (newMessages : List Message) :
    let batch :=
      if persisted.userPersisted then newMessages
      else .plain .user opts.userMessage :: newMessages
    Effects.Guided (Sees opts) o (persist opts persisted newMessages)
      fun persisted' o' => persisted' = ⟨true, persisted.writtenByLoop + batch.length⟩ ∧
        o' = { o with written := o.written ++ batch } := by
  intro batch
  unfold persist
  rw [hdurable.step]
  have hbatch : batch = if persisted.userPersisted then newMessages
      else .plain .user runOpts.message :: newMessages := by
    show (if _ then _ else _) = _
    rw [hdurable.message]
  rw [hbatch]
  refine Effects.Guided.bind (Effects.Guided.perform rfl rfl :
    Effects.Guided (Sees opts) _ _ fun _ o' => o' = observe opts o _) ?_
  rintro - o' rfl
  exact .ret ⟨rfl, rfl⟩

/-- The assistant's message is written behind what was said before. -/
theorem noted_persist (hdurable : Durable opts runOpts) (o : Observed)
    {replies : List (Except String LLMResponse)} {persisted : Persisted}
    (hnoted : Noted opts replies persisted o.written) (newMessages : List Message) :
    Effects.Guided (Sees opts) o (persist opts persisted newMessages)
      fun persisted' o' => persisted' = ⟨true, o'.written.length⟩ ∧
        o' = { o with written := talk opts replies ++ newMessages } := by
  refine (guided_persist hdurable o persisted newMessages).imp ?_
  rintro persisted' o' ⟨rfl, rfl⟩
  unfold Noted at hnoted
  split at hnoted
  · next hnil =>
      obtain ⟨rfl, hwritten⟩ := hnoted
      rw [hwritten, hnil]
      exact ⟨by simp, rfl⟩
  · obtain ⟨rfl, hwritten⟩ := hnoted
    exact ⟨by simp, by rw [← hwritten]; rfl⟩

/-- The tools of a response run, and the results are noted. -/
theorem told_toolStep (hdurable : Durable opts runOpts) (h : Told opts passes st o)
    {response : LLMResponse} (hlast : lastWords opts o.replies response = none)
    {st' : LoopState} (hcounted : Counted st st')
    (hsame : SameCounters st' (trackUsage opts (counted opts o.replies) response).1) :
    Effects.Guided (Sees opts) { o with replies := o.replies ++ [.ok response] }
      (toolStep opts (passes + 1) st' response) (PassTold opts (passes + 1)) := by
  have hnoted : Noted opts o.replies st'.persisted o.written := by
    rw [hcounted.persisted]
    exact h.noted
  refine (noted_persist hdurable { o with replies := o.replies ++ [.ok response] } hnoted
    [assistantWithToolCalls response]).bind ?_
  rintro persisted o₁ ⟨hpersisted, rfl⟩
  have hhandlers : ∀ o₁, Effects.Only (fun e => Sees opts o₁ e o₁)
      (runTools opts (passes + 1) response) := by
    intro o₁ e he
    have hhandler := runTools_only opts (passes + 1) response e he
    cases e with
    | handler call safe => exact rfl
    | _ => exact hhandler.elim
  refine (Effects.Guided.still (hhandlers _)).and_result.bind ?_
  rintro results o₂ ⟨rfl, hresults⟩
  have hexchange : exchange opts (passes + 1) response =
      assistantWithToolCalls response :: results.map ToolCallResult.message := by
    unfold exchange
    rw [hresults]
  -- All that is said until now is written.
  have hwrite : Effects.Guided (Sees opts)
      { o with
        replies := o.replies ++ [.ok response]
        written := talk opts o.replies ++ [assistantWithToolCalls response] }
      (if (results.map ToolCallResult.message).isEmpty then Effects.ret persisted
        else persist opts persisted (results.map ToolCallResult.message))
      fun persisted' o' => persisted' = ⟨true, o'.written.length⟩ ∧
        o' = { o with
          replies := o.replies ++ [.ok response]
          written := talk opts (o.replies ++ [.ok response]) } := by
    rw [talk_snoc, h.count]
    simp only
    rw [hexchange]
    split
    · next hempty =>
        rw [isEmpty_iff.mp hempty]
        exact .ret ⟨hpersisted, rfl⟩
    · refine (guided_persist hdurable _ persisted _).imp ?_
      rintro persisted' o' ⟨rfl, rfl⟩
      rw [hpersisted]
      exact ⟨by simp; omega, by simp⟩
  refine hwrite.bind ?_
  rintro persisted' o₃ ⟨hpersisted', rfl⟩
  have hending := (ending_snoc opts o.replies response).trans hlast
  have hnoted' : Noted opts (o.replies ++ [.ok response]) persisted'
      (talk opts (o.replies ++ [.ok response])) := by
    unfold Noted
    rw [if_neg (by simp)]
    exact ⟨hpersisted', rfl⟩
  have hkept : ∃ since,
      nonSystem (st'.messages ++ assistantWithToolCalls response ::
          results.map ToolCallResult.message) = nonSystem o.base ++ since ∧
        talk opts (o.replies ++ [.ok response]) = o.heard ++ since := by
    obtain ⟨since, hmessages, htalk⟩ := h.kept
    obtain ⟨warnings, hst', hwarnings⟩ := hcounted.messages
    refine ⟨since ++ exchange opts (passes + 1) response, ?_, ?_⟩
    · have hassistant : nonSystem (assistantWithToolCalls response ::
          results.map ToolCallResult.message) = exchange opts (passes + 1) response := by
        rw [hexchange, ← singleton_append, nonSystem_append,
          nonSystem_of_answers (runTools_messages hresults)]
        rfl
      rw [nonSystem_append, hassistant, hst', nonSystem_append, hwarnings, hmessages]
      simp
    · rw [talk_snoc, htalk, h.count, append_assoc]
  refine .ret ?_
  generalize (if results.any ToolCallResult.success then 0
    else st'.consecutiveNoProgress + 1) = noProgress
  cases isStuck opts noProgress with
  | true =>
    intro _
    exact
      { kept := by
          rw [exchanged_of_going hending, closing_of_going hending]
          simpa using hkept
        heard := h.heard
        noted := by
          rw [exchanged_of_going hending]
          exact hnoted' }
  | false =>
    exact
      { count := by simp [h.count]
        counters := by
          rw [counted_snoc]
          exact ⟨hsame.input, hsame.output, hsame.warning, hsame.lowDelta, hsame.previous⟩
        kept := hkept
        headed := by
          obtain ⟨m, rest, hmessages, hsystem⟩ := h.headed
          obtain ⟨warnings, hst', -⟩ := hcounted.messages
          exact ⟨m, _, by simp only [hst', hmessages, cons_append]; rfl, hsystem⟩
        heard := h.heard
        noted := hnoted'
        going := hending }

/-- A response that stops the loop is the last that is said. -/
theorem ended_response (h : Told opts passes st o) {response : LLMResponse}
    {text : List Message} (hlast : lastWords opts o.replies response = some text)
    (htext : nonSystem text = text) {st' : LoopState} (hcounted : Counted st st')
    (status : LoopStatus) :
    Ended opts ⟨status, response.text, passes + 1, st'.messages ++ text⟩ st'.persisted
      { o with replies := o.replies ++ [.ok response] } := by
  have hending := (ending_snoc opts o.replies response).trans hlast
  obtain ⟨since, hmessages, htalk⟩ := h.kept
  obtain ⟨warnings, hst', hwarnings⟩ := hcounted.messages
  exact
    { kept := by
        refine ⟨since, ?_, ?_⟩
        · rw [closing_of_ended hending]
          show nonSystem (st'.messages ++ text) = _
          rw [nonSystem_append, htext, hst', nonSystem_append, hwarnings, hmessages,
            append_nil]
        · rw [exchanged_of_ended hending]
          exact htalk
      heard := h.heard
      noted := by
        rw [exchanged_of_ended hending, hcounted.persisted]
        exact h.noted }

theorem nonSystem_stopText (response : LLMResponse) :
    nonSystem (stopText response) = stopText response := by
  unfold stopText
  split <;> rfl

theorem told_respond (hdurable : Durable opts runOpts) (h : Told opts passes st o)
    (response : LLMResponse) :
    Effects.Guided (Sees opts) { o with replies := o.replies ++ [.ok response] }
      (respond opts (passes + 1) st response) (PassTold opts (passes + 1)) := by
  obtain ⟨hstatus, hsame⟩ := trackUsage_same opts h.counters response
  have hcounted := trackUsage_counted opts st response
  unfold respond
  rcases htrack : trackUsage opts st response with ⟨st', status | status⟩
  · rw [htrack] at hstatus hsame hcounted
    simp only
    split
    · next hcalls =>
        refine .ret fun _ => ended_response h ?_ rfl hcounted _
        unfold lastWords
        rw [← hstatus]
        exact if_pos hcalls
    · next hcalls =>
        refine told_toolStep hdurable h ?_ hcounted hsame
        unfold lastWords
        rw [← hstatus]
        exact if_neg hcalls
  · rw [htrack] at hstatus hcounted
    refine .ret fun _ => ended_response h ?_ (nonSystem_stopText response) hcounted _
    unfold lastWords
    rw [← hstatus]

/-- One pass of the loop. -/
theorem told_iterate (hdurable : Durable opts runOpts) (h : Told opts passes st o) :
    Effects.Guided (Sees opts) o (iterate opts (passes + 1) st)
      (PassTold opts (passes + 1)) := by
  unfold ReactLoop.iterate
  refine (told_compressContext (passes + 1) h).bind ?_
  intro st' o' h'
  refine (Effects.Guided.perform rfl rfl : Effects.Guided (Sees opts) _ _
    fun _ o'' => o'' = observe opts o' (.chat st'.messages _)).bind ?_
  rintro - o'' rfl
  cases hreply : opts.llm (passes + 1) st'.messages with
  | error error => exact .ret fun herror => absurd rfl herror
  | ok response => exact told_respond hdurable h' response

theorem told_loop (hdurable : Durable opts runOpts) (left : ℕ) (h : Told opts passes st o) :
    Effects.Guided (Sees opts) o (loop opts left passes st)
      fun ended o' => ended.1.status ≠ .error → Ended opts ended.1 ended.2 o' := by
  induction left generalizing passes st o with
  | zero =>
    refine .ret fun _ => ?_
    exact
      { kept := by
          rw [exchanged_of_going h.going, closing_of_going h.going]
          simpa using h.kept
        heard := h.heard
        noted := by
          rw [exchanged_of_going h.going]
          exact h.noted }
  | succ left ih =>
    refine (told_iterate hdurable h).bind ?_
    rintro (st' | ended) o' hpass
    · exact ih hpass
    · exact .ret hpass

theorem told_reactLoop (hdurable : Durable opts runOpts) {result : LoopResult}
    {persisted : Persisted} (h : (reactLoop opts).result = .ok (result, persisted))
    (hstatus : result.status ≠ .error) :
    Ended opts result persisted (observed opts (reactLoop opts).events) := by
  obtain ⟨o', hfollow, hresult⟩ :=
    told_loop hdurable opts.maxIterations (told_initialState opts)
  have hend := hfollow.eq_foldl fun _ _ _ h => h
  rw [hend] at hresult
  exact hresult _ h hstatus

end

/-! ### Without a durable store -/

/-- The loop without writing. -/
def detached (opts : ReactLoopOptions) : ReactLoopOptions := { opts with persistStep := none }

/-- A state without what is written. -/
def forget (st : LoopState) : LoopState := { st with persisted := ⟨false, 0⟩ }

def forgetEnd (ended : LoopResult × Persisted) : LoopResult × Persisted :=
  (ended.1, ⟨false, 0⟩)

def forgetPass : ReactLoop.Pass → ReactLoop.Pass := Sum.map forget forgetEnd

section

variable {opts : ReactLoopOptions} {runOpts : RunOptions}

theorem persist_ok (hdurable : Durable opts runOpts) (persisted : Persisted)
    (newMessages : List Message) :
    ∃ persisted', (persist opts persisted newMessages).result = .ok persisted' := by
  unfold persist
  rw [hdurable.step]
  exact ⟨_, rfl⟩

theorem compressContext_detached (iteration : ℕ) (st : LoopState) :
    (compressContext (detached opts) iteration (forget st)).result =
      (compressContext opts iteration st).result.map forget := by
  unfold compressContext
  have hsame : (detached opts).contextCompression = opts.contextCompression := rfl
  rw [hsame]
  cases opts.contextCompression with
  | none => rfl
  | some config =>
    show (if shouldCompressMessages st.messages config then _ else _ : Effects _).result = _
    by_cases hcompress : shouldCompressMessages st.messages config = true
    · simp only [hcompress, if_true, Effects.bind_result, Effects.ofExcept_result, forget]
      cases config.compress iteration (st.messages.drop 1) with
      | error error => rfl
      | ok compressed => cases compressed <;> rfl
    · simp only [hcompress]
      rfl

theorem checkBudget_detached (opts : ReactLoopOptions) (st : LoopState) :
    checkBudget (detached opts) (forget st) =
      (forget (checkBudget opts st).1, (checkBudget opts st).2) := by
  unfold checkBudget
  have hsame : (detached opts).tokenBudget = opts.tokenBudget := rfl
  rw [hsame]
  cases opts.tokenBudget with
  | none => rfl
  | some budget =>
    dsimp only
    show (if usedAtLeast _ (st.totalInputTokens + st.totalOutputTokens) _ then _ else
      if !st.warningSent &&
        usedAtLeast _ (st.totalInputTokens + st.totalOutputTokens) _ then _ else _) = _
    split_ifs <;> rfl

theorem checkReturns_detached (st : LoopState) :
    checkReturns (detached opts) (forget st) =
      (forget (checkReturns opts st).1, (checkReturns opts st).2) := by
  unfold checkReturns
  have hsame : (detached opts).diminishingReturns = opts.diminishingReturns := rfl
  rw [hsame]
  cases opts.diminishingReturns with
  | none => rfl
  | some config =>
    dsimp only
    show (if st.totalInputTokens + st.totalOutputTokens - st.previousTotalTokens < _ then
      if _ ≤ st.consecutiveLowDelta + 1 then _ else _ else _) = _
    split_ifs <;> rfl

theorem trackUsage_detached (st : LoopState) (response : LLMResponse) :
    trackUsage (detached opts) (forget st) response =
      (forget (trackUsage opts st response).1,
        (trackUsage opts st response).2) := by
  unfold trackUsage
  cases response.usage with
  | none => rfl
  | some usage =>
    have hbudget := checkBudget_detached opts
      { st with
        totalInputTokens := st.totalInputTokens + usage.inputTokens
        totalOutputTokens := st.totalOutputTokens + usage.outputTokens }
    simp only [forget] at hbudget ⊢
    rw [hbudget]
    rcases checkBudget opts _ with ⟨st', status | status⟩
    · exact checkReturns_detached st'
    · rfl

theorem toolStep_detached (hdurable : Durable opts runOpts) (iteration : ℕ) (st : LoopState)
    (response : LLMResponse) :
    (toolStep (detached opts) iteration (forget st) response).result =
      (toolStep opts iteration st response).result.map forgetPass := by
  unfold toolStep
  obtain ⟨persisted, hpersisted⟩ :=
    persist_ok hdurable st.persisted [assistantWithToolCalls response]
  simp only [Effects.bind_result]
  rw [hpersisted]
  show ((runTools opts iteration response).result.bind _ : Except _ _) =
    Except.map _ ((runTools opts iteration response).result.bind _)
  cases (runTools opts iteration response).result with
  | error error => rfl
  | ok results =>
    have hplain : ((if (results.map ToolCallResult.message).isEmpty then
        Effects.ret (forget st).persisted
        else persist (detached opts) (forget st).persisted
          (results.map ToolCallResult.message)) : Effects Persisted).result =
        .ok ⟨false, 0⟩ := by
      split <;> rfl
    have hwritten : ∃ persisted', ((if (results.map ToolCallResult.message).isEmpty then
        Effects.ret persisted
        else persist opts persisted (results.map ToolCallResult.message)) :
          Effects Persisted).result = .ok persisted' := by
      split
      · exact ⟨_, rfl⟩
      · exact persist_ok hdurable _ _
    obtain ⟨persisted', hpersisted'⟩ := hwritten
    dsimp only [Except.bind]
    rw [hplain, hpersisted']
    show Except.ok (if isStuck opts (if _ then 0 else st.consecutiveNoProgress + 1)
      then _ else _) = Except.ok (forgetPass (if isStuck opts
        (if results.any ToolCallResult.success then 0 else st.consecutiveNoProgress + 1)
          then _ else _))
    split_ifs <;> rfl

theorem respond_detached (hdurable : Durable opts runOpts) (iteration : ℕ) (st : LoopState)
    (response : LLMResponse) :
    (respond (detached opts) iteration (forget st) response).result =
      (respond opts iteration st response).result.map forgetPass := by
  unfold respond
  rw [trackUsage_detached]
  rcases trackUsage opts st response with ⟨st', status | status⟩
  · cases response.toolCalls.isEmpty with
    | true => rfl
    | false => exact toolStep_detached hdurable iteration st' response
  · rfl

theorem iterate_detached (hdurable : Durable opts runOpts) (iteration : ℕ) (st : LoopState) :
    (iterate (detached opts) iteration (forget st)).result =
      (iterate opts iteration st).result.map forgetPass := by
  unfold ReactLoop.iterate
  rw [Effects.bind_result, Effects.bind_result, compressContext_detached]
  cases (compressContext opts iteration st).result with
  | error error => rfl
  | ok st' =>
    show (Effects.bind _ _).result = Except.map _ (Effects.bind _ _).result
    rw [Effects.bind_perform, Effects.bind_perform]
    have hsame : (detached opts).llm iteration (forget st').messages =
      opts.llm iteration st'.messages := rfl
    rw [hsame]
    cases hreply : opts.llm iteration st'.messages with
    | error error => rfl
    | ok response => exact respond_detached hdurable iteration st' response

theorem loop_detached (hdurable : Durable opts runOpts) (left iteration : ℕ) (st : LoopState) :
    (loop (detached opts) left iteration (forget st)).result =
      (loop opts left iteration st).result.map forgetEnd := by
  induction left generalizing iteration st with
  | zero => rfl
  | succ left ih =>
    unfold loop
    rw [Effects.bind_result, Effects.bind_result, iterate_detached hdurable]
    rcases (iterate opts (iteration + 1) st).result with error | st' | ended
    · rfl
    · exact ih (iteration + 1) st'
    · rfl

theorem reactLoop_detached (hdurable : Durable opts runOpts) :
    (reactLoop (detached opts)).result = (reactLoop opts).result.map forgetEnd :=
  loop_detached hdurable opts.maxIterations 0 (initialState opts)

end

end Vertz.Proofs
