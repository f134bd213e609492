import Vertz.Spec.AgentRuns

/-!
# `Vertz.Proofs.WorkflowRuns`: when resuming is no interruption

`onward` is a session in one go: at a gate it goes on with the restored
outputs.
-/

namespace Vertz.Proofs

open Vertz.Lib
open Vertz.Agents
open Vertz.Spec.WorkflowSession List Record

/-! ### Restoring -/

variable (results : Record StepResult)

theorem restoreResults_eq : restoreResults results = results :=
  eq_of_entries (entries_ofList results.nodup)

theorem restorePrev_entries :
    (restorePrev results).entries = results.entries.map fun e => (e.1, e.2.restored) := by
  have hnodup : ((results.entries.map fun e => (e.1, e.2.restored)).map Prod.fst).Nodup := by
    rw [map_map]
    exact results.nodup
  rw [← entries_ofList hnodup]
  unfold restorePrev Record.ofList Record.insertAll
  rw [foldl_map]

theorem keys_restorePrev : (restorePrev results).keys = results.keys := by
  unfold Record.keys
  rw [restorePrev_entries, map_map]
  rfl

theorem get?_restorePrev (name : String) :
    (restorePrev results).get? name = (results.get? name).map StepResult.restored := by
  rw [← get?_mapValues]
  exact congrArg (fun r => Record.get? r name) (eq_of_entries (restorePrev_entries results))

theorem eq_restorePrev_iff {results : Record StepResult} {prev : Record Js}
    (hkeys : prev.keys = results.keys) : prev = restorePrev results ↔
      ∀ name result, results.get? name = some result → prev.get? name = some result.restored := by
  constructor
  · rintro rfl name result hresult
    rw [get?_restorePrev, hresult]
    rfl
  · intro h
    refine eq_of_keys (hkeys.trans (keys_restorePrev results).symm) fun name => ?_
    rw [get?_restorePrev]
    cases hresult : results.get? name with
    | some result => exact h name result hresult
    | none =>
      have hnone : name ∉ results.keys := by
        rw [mem_keys_iff, hresult]
        exact Bool.false_ne_true
      rw [← hkeys, mem_keys_iff, Option.isSome_iff_ne_none, not_not] at hnone
      exact hnone

theorem keys_insert {results : Record StepResult} {prev : Record Js}
    (hkeys : prev.keys = results.keys) (name : String) (output : Js) (result : StepResult) :
    (prev.insert name output).keys = (results.insert name result).keys := by
  unfold Record.keys at hkeys ⊢
  show (Record.put name output prev.entries).map Prod.fst =
    (Record.put name result results.entries).map Prod.fst
  rw [keys_put, keys_put, hkeys]

/-! ### One step -/

section

variable (jsonParse : String → Option Js) (input : Js)

/-- How a step ends: the workflow goes on with its result and its output,
or it stops. -/
def runStep (step : StepDefinition) (stepResults : Record StepResult) (prev : Record Js) :
    List StepStart × (Except String WorkflowResult ⊕ StepResult × Js) :=
  match step.agent with
  | none => ([], .inl (.error ("Step \"" ++ step.name ++ "\" has no agent assigned.")))
  | some agent =>
    match (step.message ⟨input, prev⟩).bind agent with
    | .error e => ([⟨step.name, ⟨input, prev⟩⟩], .inl (.error e))
    | .ok result =>
      if result.succeeded then
        match step.stepOutput jsonParse result.response with
        | .error reason =>
          ([⟨step.name, ⟨input, prev⟩⟩], .inl (.ok (.failed
            (stepResults.insert step.name result) step.name reason)))
        | .ok output => ([⟨step.name, ⟨input, prev⟩⟩], .inr (result, output))
      else
        ([⟨step.name, ⟨input, prev⟩⟩], .inl (.ok (.failed
          (stepResults.insert step.name result) step.name .agentFailed)))

/-- What follows a step, after how it ended. -/
def after (name : String) (stepResults : Record StepResult) (prev : Record Js)
    (next : Record StepResult → Record Js → WorkflowRun) :
    List StepStart × (Except String WorkflowResult ⊕ StepResult × Js) → WorkflowRun
  | (starts, .inl outcome) => (starts, outcome)
  | (starts, .inr (result, output)) =>
    let run := next (stepResults.insert name result) (prev.insert name output)
    (starts ++ run.1, run.2)

variable {step : StepDefinition}

theorem runSteps_step (hgate : step.approval = none) (rest : List StepDefinition)
    (stepResults : Record StepResult) (prev : Record Js) :
    runSteps jsonParse input (step :: rest) stepResults prev =
      after step.name stepResults prev (runSteps jsonParse input rest)
        (runStep jsonParse input step stepResults prev) := by
  rw [runSteps, hgate]
  unfold runStep
  cases step.agent with
  | none => rfl
  | some agent =>
    simp only
    cases (step.message ⟨input, prev⟩).bind agent with
    | error e => rfl
    | ok result =>
      simp only
      cases result.succeeded with
      | false => rfl
      | true =>
        simp only [if_true]
        cases step.stepOutput jsonParse result.response <;> rfl

theorem passed_step (hgate : step.isGate = false) (rest : List StepDefinition)
    (stepResults : Record StepResult) (prev : Record Js) :
    passed jsonParse input (step :: rest) stepResults prev =
      match (runStep jsonParse input step stepResults prev).2 with
      | .inl _ => none
      | .inr (result, output) =>
        passed jsonParse input rest (stepResults.insert step.name result)
          (prev.insert step.name output) := by
  rw [passed, hgate]
  unfold runStep
  cases step.agent with
  | none => rfl
  | some agent =>
    simp only [Bool.false_eq_true, if_false]
    cases (step.message ⟨input, prev⟩).bind agent with
    | error e => rfl
    | ok result =>
      simp only
      cases result.succeeded with
      | false => rfl
      | true =>
        simp only [if_true]
        cases step.stepOutput jsonParse result.response <;> rfl

theorem runStep_starts (hagent : step.agent.isSome = true) (stepResults : Record StepResult)
    (prev : Record Js) :
    (runStep jsonParse input step stepResults prev).1 = [⟨step.name, ⟨input, prev⟩⟩] := by
  obtain ⟨agent, hagent⟩ := Option.isSome_iff_exists.mp hagent
  unfold runStep
  rw [hagent]
  simp only
  cases (step.message ⟨input, prev⟩).bind agent with
  | error e => rfl
  | ok result =>
    simp only
    cases result.succeeded with
    | false => rfl
    | true =>
      simp only [if_true]
      cases step.stepOutput jsonParse result.response <;> rfl

/-! ### Sessions -/

/-- A session in one go. -/
def onward : List StepDefinition → Record StepResult → Record Js → WorkflowRun
  | [], stepResults, _ => ([], .ok (.complete stepResults))
  | step :: rest, stepResults, prev =>
    if step.isGate then onward rest stepResults (restorePrev stepResults)
    else
      after step.name stepResults prev (onward rest)
        (runStep jsonParse input step stepResults prev)

theorem isGate_false (h : step.isGate = false) : step.approval = none := by
  simpa [StepDefinition.isGate] using h

theorem isGate_true (h : step.isGate = true) :
    ∃ message, step.approval = some message := Option.isSome_iff_exists.mp h

theorem runStep_stops {stepResults : Record StepResult} {prev : Record Js}
    {outcome : Except String WorkflowResult}
    (h : (runStep jsonParse input step stepResults prev).2 = .inl outcome) :
    ∀ result, outcome = .ok result → result.pendingStep = none := by
  unfold runStep at h
  cases hagent : step.agent with
  | none =>
    rw [hagent] at h
    cases h
    exact fun _ h => by cases h
  | some agent =>
    rw [hagent] at h
    simp only at h
    cases hmessage : (step.message ⟨input, prev⟩).bind agent with
    | error e =>
      rw [hmessage] at h
      cases h
      exact fun _ h => by cases h
    | ok result =>
      rw [hmessage] at h
      simp only at h
      cases hsucceeded : result.succeeded with
      | false =>
        rw [hsucceeded] at h
        cases h
        rintro _ ⟨⟩
        rfl
      | true =>
        rw [hsucceeded] at h
        simp only [if_true] at h
        cases houtput : step.stepOutput jsonParse result.response with
        | error reason =>
          rw [houtput] at h
          cases h
          rintro _ ⟨⟩
          rfl
        | ok output =>
          rw [houtput] at h
          cases h

/-- A run ends at the first gate it reaches, or it is all of the
session. -/
theorem runSteps_cases (steps : List StepDefinition) (stepResults : Record StepResult)
    (prev : Record Js) :
    (runSteps jsonParse input steps stepResults prev = onward jsonParse input steps stepResults prev ∧
      ∀ result, (runSteps jsonParse input steps stepResults prev).2 = .ok result →
        result.pendingStep = none) ∨
      ∃ before gate rest starts stepResults' message, steps = before ++ gate :: rest ∧
        runSteps jsonParse input steps stepResults prev =
          (starts, .ok (.pending stepResults' gate.name message)) ∧
        onward jsonParse input steps stepResults prev =
          (starts ++ (onward jsonParse input rest stepResults' (restorePrev stepResults')).1,
            (onward jsonParse input rest stepResults' (restorePrev stepResults')).2) := by
  induction steps generalizing stepResults prev with
  | nil =>
    refine .inl ⟨rfl, ?_⟩
    rintro _ ⟨⟩
    rfl
  | cons step rest ih =>
    cases hgate : step.isGate with
    | true =>
      obtain ⟨message, happroval⟩ := isGate_true hgate
      refine .inr ⟨[], step, rest, [], stepResults, message ⟨input, prev⟩, rfl, ?_, ?_⟩
      · rw [runSteps, happroval]
      · rw [onward, hgate, nil_append]
        rfl
    | false =>
      rw [runSteps_step jsonParse input (isGate_false hgate), onward, hgate]
      simp only [Bool.false_eq_true, if_false]
      rcases hstep : runStep jsonParse input step stepResults prev with ⟨starts, ending⟩
      cases ending with
      | inl outcome =>
        refine .inl ⟨rfl, runStep_stops jsonParse input (congrArg Prod.snd hstep)⟩
      | inr next =>
        obtain ⟨result, output⟩ := next
        simp only [after]
        rcases ih (stepResults.insert step.name result) (prev.insert step.name output) with
          ⟨heq, hended⟩ | ⟨before, gate, rest', starts', stepResults', message, hsplit, hrun,
            honward⟩
        · exact .inl ⟨by rw [heq], hended⟩
        · refine .inr ⟨step :: before, gate, rest', starts ++ starts', stepResults', message,
            ?_, ?_, ?_⟩
          · rw [hsplit, cons_append]
          · rw [hrun]
          · rw [honward, append_assoc]

/-! ### Without interruption -/

/-- The outputs are those that restoring gives, wherever the steps go on
behind a gate. -/
def Restores (steps : List StepDefinition) (stepResults : Record StepResult) (prev : Record Js) :
    Prop :=
  ∀ before gate rest, steps = before ++ gate :: rest → gate.isGate = true → Continues rest →
    ∀ stepResults' prev', passed jsonParse input before stepResults prev =
      some (stepResults', prev') → prev' = restorePrev stepResults'

def ungated (steps : List StepDefinition) : List StepDefinition :=
  steps.filter fun step => !step.isGate

theorem ungated_gate (h : step.isGate = true) (rest : List StepDefinition) :
    ungated (step :: rest) = ungated rest := by
  simp [ungated, h]

theorem ungated_step (h : step.isGate = false) (rest : List StepDefinition) :
    ungated (step :: rest) = step :: ungated rest := by
  simp [ungated, h]

theorem continues_gate (h : step.isGate = true) (rest : List StepDefinition) :
    Continues (step :: rest) ↔ Continues rest := by
  simp [Continues, h]

theorem continues_step (h : step.isGate = false) (rest : List StepDefinition) :
    Continues (step :: rest) ↔ step.agent.isSome = true := by
  simp [Continues, h]

theorem not_continues_nil : ¬ Continues [] := by simp [Continues]

/-- No step starts, so the outputs do not matter. -/
theorem onward_stuck {steps : List StepDefinition} (h : ¬ Continues steps)
    (stepResults : Record StepResult) (prev prev' : Record Js) :
    onward jsonParse input steps stepResults prev =
      runSteps jsonParse input (ungated steps) stepResults prev' := by
  induction steps generalizing prev with
  | nil => rfl
  | cons step rest ih =>
    rw [onward]
    cases hgate : step.isGate with
    | true =>
      rw [continues_gate hgate] at h
      rw [ungated_gate hgate]
      exact ih h _
    | false =>
      rw [continues_step hgate, Option.isSome_iff_ne_none, not_not] at h
      rw [ungated_step hgate, runSteps_step jsonParse input (isGate_false hgate)]
      unfold runStep
      rw [h]
      rfl

/-- Behind a gate, the first step that starts sees the restored outputs. -/
theorem onward_ne {steps : List StepDefinition} (h : Continues steps)
    {stepResults : Record StepResult} {prev : Record Js} (hne : restorePrev stepResults ≠ prev) :
    onward jsonParse input steps stepResults (restorePrev stepResults) ≠
      runSteps jsonParse input (ungated steps) stepResults prev := by
  induction steps with
  | nil => exact absurd h not_continues_nil
  | cons step rest ih =>
    rw [onward]
    cases hgate : step.isGate with
    | true =>
      rw [continues_gate hgate] at h
      rw [ungated_gate hgate]
      exact ih h
    | false =>
      rw [continues_step hgate] at h
      rw [ungated_step hgate, runSteps_step jsonParse input (isGate_false hgate)]
      intro heq
      have hhead := congrArg (fun run => run.1.head?.map fun start => start.ctx.prev) heq
      have hstarts : ∀ next prev, (after step.name stepResults prev next
          (runStep jsonParse input step stepResults prev)).1.head?.map (fun start =>
            start.ctx.prev) = some prev := by
        intro next prev
        have hone := runStep_starts jsonParse input h stepResults prev
        rcases hstep : runStep jsonParse input step stepResults prev with ⟨starts, ending⟩
        rw [hstep] at hone
        cases hone
        cases ending <;> rfl
      simp only [Bool.false_eq_true, if_false, hstarts, Option.some.injEq] at hhead
      exact hne hhead

/-- Once no step with an agent is left to start, nothing is left to
restore. -/
theorem restores_stuck {steps : List StepDefinition} (h : ¬ Continues steps)
    (stepResults : Record StepResult) (prev : Record Js) :
    Restores jsonParse input steps stepResults prev := by
  induction steps with
  | nil =>
    intro before gate rest hsplit
    cases before <;> cases hsplit
  | cons step steps ih =>
    intro before gate rest hsplit hgate hrest stepResults' prev' hpassed
    cases hstep : step.isGate with
    | true =>
      rw [continues_gate hstep] at h
      cases before with
      | nil =>
        cases hsplit
        exact absurd hrest h
      | cons first before =>
        cases hsplit
        rw [passed, hstep] at hpassed
        exact ih h before gate rest rfl hgate hrest stepResults' prev' hpassed
    | false =>
      rw [continues_step hstep, Option.isSome_iff_ne_none, not_not] at h
      cases before with
      | nil =>
        cases hsplit
        rw [hgate] at hstep
        cases hstep
      | cons first before =>
        cases hsplit
        rw [passed, hstep, h] at hpassed
        cases hpassed

/-- A session goes as the uninterrupted run if and only if every output
that is read behind a gate is what restoring gives. -/
theorem onward_eq_iff (steps : List StepDefinition) (stepResults : Record StepResult)
    (prev : Record Js) :
    onward jsonParse input steps stepResults prev =
        runSteps jsonParse input (ungated steps) stepResults prev ↔
      Restores jsonParse input steps stepResults prev := by
  induction steps generalizing stepResults prev with
  | nil => exact ⟨fun _ => restores_stuck jsonParse input not_continues_nil _ _, fun _ => rfl⟩
  | cons step steps ih =>
    rw [onward]
    cases hgate : step.isGate with
    | true =>
      rw [ungated_gate hgate]
      by_cases hcontinues : Continues steps
      · by_cases hsame : restorePrev stepResults = prev
        · rw [if_pos rfl, hsame, ih]
          constructor
          · intro h before gate rest hsplit hgate' hrest stepResults' prev' hpassed
            cases before with
            | nil =>
              cases hpassed
              exact hsame.symm
            | cons first before =>
              cases hsplit
              rw [passed, hgate] at hpassed
              exact h before gate rest rfl hgate' hrest stepResults' prev' hpassed
          · intro h before gate rest hsplit hgate' hrest stepResults' prev' hpassed
            refine h (step :: before) gate rest (by rw [hsplit]; rfl) hgate' hrest _ _ ?_
            rw [passed, hgate]
            exact hpassed
        · refine iff_of_false (onward_ne jsonParse input hcontinues hsame) fun h => hsame ?_
          exact (h [] step steps rfl hgate hcontinues stepResults prev rfl).symm
      · refine iff_of_true (onward_stuck jsonParse input hcontinues _ _ _) ?_
        refine restores_stuck jsonParse input ?_ _ _
        rw [continues_gate hgate]
        exact hcontinues
    | false =>
      rw [ungated_step hgate, runSteps_step jsonParse input (isGate_false hgate)]
      have hpass := fun rest => passed_step jsonParse input hgate rest stepResults prev
      rcases hstep : runStep jsonParse input step stepResults prev with ⟨starts, ending⟩
      rw [hstep] at hpass
      cases ending with
      | inl outcome =>
        refine iff_of_true rfl ?_
        intro before gate rest hsplit hgate' hrest stepResults' prev' hpassed
        cases before with
        | nil =>
          cases hsplit
          rw [hgate'] at hgate
          cases hgate
        | cons first before =>
          cases hsplit
          rw [hpass] at hpassed
          cases hpassed
      | inr next =>
        obtain ⟨result, output⟩ := next
        have hnext := ih (stepResults.insert step.name result) (prev.insert step.name output)
        simp only [Bool.false_eq_true, if_false, after, Prod.mk.injEq,
          append_cancel_left_eq]
        rw [← Prod.ext_iff, hnext]
        constructor
        · intro h before gate rest hsplit hgate' hrest stepResults' prev' hpassed
          cases before with
          | nil =>
            cases hsplit
            rw [hgate'] at hgate
            cases hgate
          | cons first before =>
            cases hsplit
            rw [hpass] at hpassed
            exact h before gate rest rfl hgate' hrest stepResults' prev' hpassed
        · intro h before gate rest hsplit hgate' hrest stepResults' prev' hpassed
          refine h (step :: before) gate rest (by rw [hsplit]; rfl) hgate' hrest _ _ ?_
          rw [hpass]
          exact hpassed

end

/-! ### Whole workflows -/

section

variable {jsonParse : String → Option Js} {workflow : WorkflowDefinition}

theorem skipTo_eq {before rest : List StepDefinition} {gate : StepDefinition}
    (h : ((before ++ gate :: rest).map StepDefinition.name).Nodup) :
    skipTo gate.name (before ++ gate :: rest) = rest := by
  induction before with
  | nil => exact if_pos rfl
  | cons step before ih =>
    rw [cons_append, map_cons, nodup_cons] at h
    have hne : ¬ step.name = gate.name := by
      intro heq
      refine h.1 ?_
      rw [heq]
      exact mem_map_of_mem (mem_append_right _ mem_cons_self)
    rw [cons_append, skipTo, if_neg hne]
    exact ih h.2

/-- Resuming after a gate runs the steps behind it, with what was
recorded. -/
theorem runWorkflow_resumed {data : Js} {input : Js} (hinput : workflow.input input = .ok data)
    {before rest : List StepDefinition} {gate : StepDefinition}
    (hsplit : workflow.steps = before ++ gate :: rest) (results : Record StepResult) :
    runWorkflow jsonParse workflow ⟨input, some gate.name, some results⟩ =
      runSteps jsonParse input rest results (restorePrev results) := by
  have hnodup := workflow.nodup
  rw [hsplit] at hnodup
  have hany : (workflow.steps.any fun step => step.name == gate.name) = true := by
    rw [hsplit]
    simp
  unfold runWorkflow
  simp only [hinput, hany, if_true, Option.map_some, Option.getD_some, restoreResults_eq]
  rw [hsplit, skipTo_eq hnodup]

/-- A session comes to what going on in one go gives. -/
theorem session_iff {data input : Js} (hinput : workflow.input input = .ok data)
    {before steps : List StepDefinition} (hsplit : workflow.steps = before ++ steps)
    {options : RunWorkflowOptions} (hoptions : options.input = input)
    {stepResults : Record StepResult} {prev : Record Js}
    (hrun : runWorkflow jsonParse workflow options = runSteps jsonParse input steps stepResults prev)
    (run : WorkflowRun) :
    Session jsonParse workflow options run ↔ run = onward jsonParse input steps stepResults prev := by
  induction hn : steps.length using Nat.strong_induction_on generalizing before steps options
    stepResults prev run with
  | _ n ih =>
    rcases runSteps_cases jsonParse input steps stepResults prev with
      ⟨heq, hended⟩ | ⟨before', gate, rest, starts, stepResults', message, hsteps, hends, honward⟩
    · rw [← heq, ← hrun]
      rw [← hrun] at hended
      constructor
      · intro h
        cases h with
        | ended hrun' _ => exact hrun'.symm
        | resumed hrun' hgate _ =>
          have hnone := hended _ (congrArg Prod.snd hrun')
          rw [hgate] at hnone
          cases hnone
      · rintro rfl
        exact .ended rfl hended
    · rw [hends] at hrun
      have hsplit' : workflow.steps = (before ++ before') ++ gate :: rest := by
        rw [hsplit, hsteps, append_assoc]
      have hresumed : runWorkflow jsonParse workflow
          ⟨options.input, some gate.name, some stepResults'⟩ =
            runSteps jsonParse input rest stepResults' (restorePrev stepResults') := by
        rw [hoptions]
        exact runWorkflow_resumed hinput hsplit' stepResults'
      have hshorter : rest.length < n := by
        rw [← hn, hsteps, length_append, length_cons]
        omega
      have hlater := fun run => ih rest.length hshorter (hsplit'.trans (append_cons _ _ _))
        (show (⟨options.input, some gate.name, some stepResults'⟩ : RunWorkflowOptions).input =
          input from hoptions) hresumed run rfl
      constructor
      · intro h
        cases h with
        | ended hrun' hended =>
          rw [hrun] at hrun'
          cases hrun'
          cases hended _ rfl
        | resumed hrun' hgate hrest =>
          rw [hrun] at hrun'
          cases hrun'
          cases hgate
          have hlast := (hlater _).mp hrest
          rw [honward, ← hlast]
      · intro h
        rw [h, honward]
        exact .resumed hrun rfl ((hlater _).mpr rfl)

theorem keys_passed {jsonParse : String → Option Js} {input : Js} {steps : List StepDefinition}
    {stepResults stepResults' : Record StepResult} {prev prev' : Record Js}
    (hkeys : prev.keys = stepResults.keys)
    (h : passed jsonParse input steps stepResults prev = some (stepResults', prev')) :
    prev'.keys = stepResults'.keys := by
  induction steps generalizing stepResults prev with
  | nil =>
    cases h
    exact hkeys
  | cons step steps ih =>
    cases hgate : step.isGate with
    | true =>
      rw [passed, hgate] at h
      exact ih hkeys h
    | false =>
      rw [passed_step jsonParse input hgate] at h
      cases hstep : (runStep jsonParse input step stepResults prev).2 with
      | inl outcome =>
        rw [hstep] at h
        cases h
      | inr next =>
        rw [hstep] at h
        exact ih (keys_insert hkeys _ _ _) h

end

/-- With an input that the workflow refuses, nothing runs. -/
theorem rejected_session {jsonParse : String → Option Js} {workflow : WorkflowDefinition}
    {input : Js} (h : ∀ data, workflow.input input ≠ .ok data) :
    Session jsonParse workflow ⟨input, none, none⟩ (uninterrupted jsonParse workflow input) := by
  have hrejected : ∃ e, runWorkflow jsonParse workflow ⟨input, none, none⟩ = ([], .error e) ∧
      uninterrupted jsonParse workflow input = ([], .error e) := by
    unfold uninterrupted runWorkflow approved
    cases hinput : workflow.input input with
    | ok data => exact absurd hinput (h data)
    | failed error => exact ⟨_, rfl, rfl⟩
    | threw error => exact ⟨_, rfl, rfl⟩
  obtain ⟨e, hrun, hreference⟩ := hrejected
  rw [hreference]
  exact .ended hrun (fun _ h => by cases h)

theorem alike_iff_restores {jsonParse : String → Option Js} {workflow : WorkflowDefinition}
    {data input : Js} (hinput : workflow.input input = .ok data) :
    ResumesAlike jsonParse workflow input ↔
      Restores jsonParse input workflow.steps .empty .empty := by
  have hrun : runWorkflow jsonParse workflow ⟨input, none, none⟩ =
      runSteps jsonParse input workflow.steps .empty .empty := by
    unfold runWorkflow
    rw [hinput]
    rfl
  have hreference : uninterrupted jsonParse workflow input =
      runSteps jsonParse input (ungated workflow.steps) .empty .empty := by
    unfold uninterrupted runWorkflow approved
    rw [hinput]
    rfl
  rw [ResumesAlike, session_iff hinput (nil_append _).symm rfl hrun, hreference, eq_comm,
    onward_eq_iff]

def greetingText : String := "\x7b\"greeting\":\"hi\"\x7d"

def parseGreeting (text : String) : Option Js :=
  if text = greetingText then some (.obj [("greeting", .str "hi")]) else none

/-- An agent that always gives the response. -/
def agentStep (name response : String) (output : Option (Js → SchemaParse)) : StepDefinition :=
  ⟨name, some fun _ => .ok ⟨.complete, response, 1⟩, none, output, none⟩

def gateStep (name : String) : StepDefinition := ⟨name, none, none, none, some fun _ => "Go on?"⟩

/-- Greet, ask for approval, then use the greeting. -/
def greetWorkflow : WorkflowDefinition where
  name := "greet-then-use"
  input := .ok
  steps := [agentStep "greet" greetingText (some .ok), gateStep "approve", agentStep "use" "" none]
  nodup := by decide

end Vertz.Proofs
