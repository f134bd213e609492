import Vertz.Lib.Run
import Vertz.Server.Auth.CircuitBreaker
import Mathlib.Data.List.Perm.Basic

/-!
# `Vertz.Proofs.BreakerRuns`: overlapping calls of a circuit breaker

The state of a run is the breaker, the calls of the wrapped function in
flight, and how often the breaker has opened so far. A call in flight
remembers whether it is a probe, that is whether it got through in the
half-open state, and how often the breaker had opened when it started.

`Guarded` is what a breaker promises of every step. A step is `Careful`
when the half-open state is left by its own probe alone.
-/

namespace Vertz.Spec

open Vertz.Server.Auth

/-- A call of the wrapped function in flight. -/
structure StartedCall where
  probe : Bool
  openings : ℕ
  deriving DecidableEq, Repr

structure BreakerRun where
  breaker : CircuitBreaker
  inFlight : List StartedCall
  openings : ℕ
  deriving DecidableEq, Repr

/-- A call of `execute` starts, the call at a position in flight
finishes, or one of the other methods is called. -/
inductive BreakerStep where
  | execute (now : ℤ)
  | resolve (position : ℕ)
  | reject (position : ℕ) (now : ℤ)
  | getState (now : ℤ)
  | reset
  deriving DecidableEq, Repr

namespace BreakerRun

def start (options : CircuitBreakerOptions) : BreakerRun where
  breaker := createCircuitBreaker options
  inFlight := []
  openings := 0

/-- The call at a position has finished and left a breaker. -/
def finish (run : BreakerRun) (position : ℕ) (breaker : CircuitBreaker) : BreakerRun where
  breaker := breaker
  inFlight := run.inFlight.eraseIdx position
  openings := if run.breaker.state ≠ .opened ∧ breaker.state = .opened then run.openings + 1
    else run.openings

def step (run : BreakerRun) : BreakerStep → BreakerRun
  | .execute now =>
    match run.breaker.execute now with
    | (breaker, .ok ()) =>
      { run with
        breaker := breaker
        inFlight := run.inFlight ++ [⟨breaker.state = .halfOpen, run.openings⟩] }
    | (breaker, .error _) => { run with breaker := breaker }
  | .resolve position =>
    if position < run.inFlight.length then run.finish position run.breaker.resolved else run
  | .reject position now =>
    if position < run.inFlight.length then run.finish position (run.breaker.rejected now)
    else run
  | .getState now => { run with breaker := run.breaker.getState now }
  | .reset => { run with breaker := run.breaker.reset }

/-- How many probes are in flight. -/
def probes (run : BreakerRun) : ℕ := run.inFlight.countP StartedCall.probe

/-- An open breaker lets no call through before the timeout has elapsed. -/
def FailsFast (run : BreakerRun) : BreakerStep → Prop
  | .execute now => run.breaker.state = .opened → run.breaker.elapsed now = false →
      (run.breaker.execute now).2 = .error {}
  | _ => True

/-- In the half-open state at most one probe is in flight. -/
def OneProbe (run : BreakerRun) : Prop := run.breaker.state = .halfOpen → run.probes ≤ 1

/-- The call a step finishes. -/
def finished (run : BreakerRun) : BreakerStep → Option StartedCall
  | .resolve position => run.inFlight[position]?
  | .reject position _ => run.inFlight[position]?
  | _ => none

/-- A call started before the breaker last opened does not close it. -/
def KeptByStale (run : BreakerRun) (action : BreakerStep) : Prop :=
  ∀ call ∈ run.finished action, call.openings < run.openings →
    (run.step action).breaker.state = .closed → run.breaker.state = .closed

def Guarded (run : BreakerRun) (action : BreakerStep) : Prop :=
  run.FailsFast action ∧ (run.step action).OneProbe ∧ run.KeptByStale action

/-- The half-open state is left only by its probe, or by a failure while
no probe is in flight; the breaker is not reset while one is. -/
def Careful (run : BreakerRun) : BreakerStep → Prop
  | .execute _ => True
  | .getState _ => True
  | .reset => run.probes = 0
  | .resolve position => run.breaker.state = .halfOpen →
      ∀ call ∈ run.inFlight[position]?, call.probe = true
  | .reject position _ => run.breaker.state = .halfOpen →
      ∀ call ∈ run.inFlight[position]?, call.probe = true ∨ run.probes = 0

instance (run : BreakerRun) : (action : BreakerStep) → Decidable (run.FailsFast action)
  | .execute now => inferInstanceAs (Decidable (_ → _ → (run.breaker.execute now).2 = .error {}))
  | .resolve _ | .reject _ _ | .getState _ | .reset => isTrue trivial

instance (run : BreakerRun) : Decidable run.OneProbe :=
  inferInstanceAs (Decidable (_ → _))

instance (run : BreakerRun) (action : BreakerStep) : Decidable (run.KeptByStale action) :=
  inferInstanceAs (Decidable (∀ call ∈ run.finished action, _ → _ → _))

instance (run : BreakerRun) (action : BreakerStep) : Decidable (run.Guarded action) :=
  inferInstanceAs (Decidable (_ ∧ _ ∧ _))

instance (run : BreakerRun) : (action : BreakerStep) → Decidable (run.Careful action)
  | .execute _ | .getState _ => isTrue trivial
  | .reset => inferInstanceAs (Decidable (_ = _))
  | .resolve position => inferInstanceAs (Decidable (_ → ∀ call ∈ run.inFlight[position]?, _))
  | .reject position _ => inferInstanceAs (Decidable (_ → ∀ call ∈ run.inFlight[position]?, _))

end BreakerRun

end Vertz.Spec

/-!
## The guarantees of a circuit breaker

`fails_fast` holds of every run. The other two guarantees rest on the
flag `halfOpenProbeInFlight` counting the probes in flight, which any call
that finishes in the half-open state clears. `ProbeFlag` is that
invariant: a careful step keeps it (`step_probeFlag`), and under it a
careful step is guarded (`guarded_of_probeFlag`). `careful_run_guarded`
is the result for whole runs.

`stale_success_closes` is a run in which a call started before the breaker
opened closes it, with the probe still in flight.
-/

namespace Vertz.Server.Auth.CircuitBreaker

variable (breaker : CircuitBreaker)

@[simp] theorem checkHalfOpenTransition_flag (now : ℤ) :
    (breaker.checkHalfOpenTransition now).halfOpenProbeInFlight
      = breaker.halfOpenProbeInFlight := by
  simp only [checkHalfOpenTransition]
  split <;> rfl

theorem checkHalfOpenTransition_state (now : ℤ) :
    (breaker.checkHalfOpenTransition now).state = breaker.state ∨
      (breaker.state = .opened ∧ (breaker.checkHalfOpenTransition now).state = .halfOpen) := by
  simp only [checkHalfOpenTransition]
  split
  · next h => exact .inr ⟨h.1, rfl⟩
  · exact .inl rfl

/-- What `execute` does to a breaker: it rejects the call, lets it through
a closed breaker, or lets it through as the probe. -/
theorem execute_cases (now : ℤ) :
    breaker.execute now = (breaker.checkHalfOpenTransition now, .error {}) ∨
    (breaker.execute now = (breaker.checkHalfOpenTransition now, .ok ()) ∧
      (breaker.checkHalfOpenTransition now).state = .closed) ∨
    (breaker.execute now =
        ({ breaker.checkHalfOpenTransition now with halfOpenProbeInFlight := true }, .ok ()) ∧
      (breaker.checkHalfOpenTransition now).state = .halfOpen ∧
      breaker.halfOpenProbeInFlight = false) := by
  cases hstate : (breaker.checkHalfOpenTransition now).state with
  | opened => exact .inl (by simp only [execute, hstate])
  | closed => exact .inr (.inl ⟨by simp only [execute, hstate], rfl⟩)
  | halfOpen =>
    cases hflag : breaker.halfOpenProbeInFlight with
    | true => exact .inl (by simp [execute, hstate, hflag])
    | false => exact .inr (.inr ⟨by simp [execute, hstate, hflag], rfl, rfl⟩)

/-- An open breaker rejects every call before the timeout has elapsed. -/
theorem execute_opened {breaker : CircuitBreaker} {now : ℤ} (hstate : breaker.state = .opened)
    (helapsed : breaker.elapsed now = false) : (breaker.execute now).2 = .error {} := by
  have hkept : breaker.checkHalfOpenTransition now = breaker := by
    simp [checkHalfOpenTransition, helapsed]
  simp only [execute, hkept, hstate]

/-- A call that resolves closes a half-open breaker and no other. -/
theorem resolved_state :
    breaker.resolved.state = if breaker.state = .halfOpen then .closed else breaker.state := by
  simp only [resolved]
  split <;> rfl

theorem resolved_flag : breaker.resolved.halfOpenProbeInFlight
      = if breaker.state = .halfOpen then false else breaker.halfOpenProbeInFlight := by
  simp only [resolved]
  split <;> rfl

theorem rejected_state (now : ℤ) :
    (breaker.rejected now).state = .opened ∨
      (breaker.state ≠ .halfOpen ∧ (breaker.rejected now).state = breaker.state) := by
  simp only [rejected]
  split
  · exact .inl rfl
  · next hstate =>
      split
      · exact .inl rfl
      · exact .inr ⟨hstate, rfl⟩

theorem rejected_flag (now : ℤ) :
    (breaker.rejected now).halfOpenProbeInFlight
      = if breaker.state = .halfOpen then false else breaker.halfOpenProbeInFlight := by
  simp only [rejected]
  split
  · rfl
  · split <;> rfl

end Vertz.Server.Auth.CircuitBreaker

namespace Vertz.Spec.BreakerRun

open Vertz.Lib Vertz.Server.Auth

/-- Taking the call at a position out of flight takes it out of the probes. -/
theorem probes_eraseIdx {calls : List StartedCall} {position : ℕ} {call : StartedCall}
    (h : calls[position]? = some call) :
    calls.countP StartedCall.probe
      = (calls.eraseIdx position).countP StartedCall.probe + if call.probe then 1 else 0 := by
  obtain ⟨hlt, rfl⟩ := List.getElem?_eq_some_iff.mp h
  have hperm := List.getElem_cons_eraseIdx_perm hlt
  rw [← hperm.countP_eq, List.countP_cons]

/-- The flag is set only in the half-open state, it counts the probes in
flight, and they all started after the breaker last opened. -/
structure ProbeFlag (run : BreakerRun) : Prop where
  halfOpen : run.breaker.halfOpenProbeInFlight = true → run.breaker.state = .halfOpen
  probes : run.probes = if run.breaker.halfOpenProbeInFlight then 1 else 0
  openings : ∀ call ∈ run.inFlight, call.probe = true → call.openings = run.openings

theorem start_probeFlag (options : CircuitBreakerOptions) : (start options).ProbeFlag where
  halfOpen := nofun
  probes := rfl
  openings := nofun

namespace ProbeFlag

variable {run : BreakerRun}

/-- No probe is in flight outside the half-open state. -/
theorem flag_eq_false (h : run.ProbeFlag) (hstate : run.breaker.state ≠ .halfOpen) :
    run.breaker.halfOpenProbeInFlight = false :=
  Bool.eq_false_iff.mpr fun hflag => hstate (h.halfOpen hflag)

theorem oneProbe (h : run.ProbeFlag) : run.OneProbe := by
  intro _
  rw [h.probes]
  split <;> omega

/-- A breaker with the same flag, which is set only if it is half-open. -/
theorem withBreaker (h : run.ProbeFlag) {breaker : CircuitBreaker}
    (hflag : breaker.halfOpenProbeInFlight = run.breaker.halfOpenProbeInFlight)
    (hstate : breaker.halfOpenProbeInFlight = true → breaker.state = .halfOpen) :
    ({ run with breaker := breaker } : BreakerRun).ProbeFlag where
  halfOpen := hstate
  probes := by
    show run.probes = _
    rw [hflag, h.probes]
  openings := h.openings

theorem checkHalfOpenTransition (h : run.ProbeFlag) (now : ℤ) :
    ({ run with breaker := run.breaker.checkHalfOpenTransition now } : BreakerRun).ProbeFlag := by
  refine h.withBreaker (CircuitBreaker.checkHalfOpenTransition_flag run.breaker now) ?_
  intro hflag
  rw [CircuitBreaker.checkHalfOpenTransition_flag] at hflag
  rcases run.breaker.checkHalfOpenTransition_state now with hkept | ⟨-, hhalf⟩
  · rw [hkept, h.halfOpen hflag]
  · exact hhalf

/-- A run without probes keeps the invariant when its breaker has no flag. -/
theorem of_no_probes {run : BreakerRun} (hflag : run.breaker.halfOpenProbeInFlight = false)
    (hprobes : run.probes = 0) : run.ProbeFlag where
  halfOpen h := absurd h (by simp [hflag])
  probes := by rw [hprobes, hflag]; rfl
  openings call hcall hprobe := absurd hprobe (List.countP_eq_zero.mp hprobes call hcall)

theorem execute (h : run.ProbeFlag) (now : ℤ) : (run.step (.execute now)).ProbeFlag := by
  have hcheck := h.checkHalfOpenTransition now
  rcases run.breaker.execute_cases now with heq | ⟨heq, hclosed⟩ | ⟨heq, hhalf, hflag⟩
  · simpa only [step, heq] using hcheck
  · have hprobe : decide ((run.breaker.checkHalfOpenTransition now).state = .halfOpen) = false := by
      simp [hclosed]
    have hno : run.probes = 0 := by
      have hf := hcheck.flag_eq_false (by simp [hclosed])
      have hp := hcheck.probes
      rw [hf] at hp
      exact hp
    simp only [step, heq, hprobe]
    refine of_no_probes (hcheck.flag_eq_false (by simp [hclosed])) ?_
    show List.countP _ _ = 0
    rw [List.countP_append]
    exact hno
  · -- The call that starts is the only probe.
    have hno : run.inFlight.countP StartedCall.probe = 0 := by
      have hp := h.probes
      rw [hflag] at hp
      exact hp
    simp only [step, heq]
    refine ⟨fun _ => hhalf, ?_, ?_⟩
    · show List.countP _ _ = 1
      rw [List.countP_append, hno]
      simp [hhalf]
    · intro call hcall hprobe
      rcases List.mem_append.mp hcall with hold | hnew
      · exact absurd hprobe (List.countP_eq_zero.mp hno call hold)
      · rw [List.mem_singleton.mp hnew]

/-- A call finishes that is a probe, or finishes while none is in flight,
and the breaker it leaves has no flag. -/
theorem finish (h : run.ProbeFlag) {position : ℕ} {call : StartedCall}
    (hcall : run.inFlight[position]? = some call) {breaker : CircuitBreaker}
    (hflag : breaker.halfOpenProbeInFlight = false)
    (hwhich : call.probe = true ∨ run.probes = 0) :
    (run.finish position breaker).ProbeFlag := by
  have hcount : run.probes
      = (run.inFlight.eraseIdx position).countP StartedCall.probe + if call.probe then 1 else 0 :=
    probes_eraseIdx hcall
  have hle := h.probes
  have hone : (if run.breaker.halfOpenProbeInFlight = true then 1 else 0) ≤ 1 := by
    split <;> omega
  refine of_no_probes hflag ?_
  show (run.inFlight.eraseIdx position).countP StartedCall.probe = 0
  rcases hwhich with hprobe | hno
  · rw [if_pos hprobe] at hcount
    omega
  · omega

/-- The probes in flight when a call finishes outside the half-open state. -/
theorem probes_eq_zero (h : run.ProbeFlag) (hstate : run.breaker.state ≠ .halfOpen) :
    run.probes = 0 := by
  rw [h.probes, h.flag_eq_false hstate]
  rfl

end ProbeFlag

theorem step_probeFlag (run : BreakerRun) (action : BreakerStep) (h : run.ProbeFlag)
    (hcareful : run.Careful action) : (run.step action).ProbeFlag := by
  cases action with
  | execute now => exact h.execute now
  | getState now => exact h.checkHalfOpenTransition now
  | reset => exact .of_no_probes rfl hcareful
  | resolve position =>
    simp only [step]
    split
    · next hlt =>
        have hcall := List.getElem?_eq_getElem hlt
        have hflag := run.breaker.resolved_flag
        by_cases hstate : run.breaker.state = .halfOpen
        · rw [if_pos hstate] at hflag
          exact h.finish hcall hflag (.inl (hcareful hstate _ hcall))
        · rw [if_neg hstate, h.flag_eq_false hstate] at hflag
          exact h.finish hcall hflag (.inr (h.probes_eq_zero hstate))
    · exact h
  | reject position now =>
    simp only [step]
    split
    · next hlt =>
        have hcall := List.getElem?_eq_getElem hlt
        have hflag := run.breaker.rejected_flag now
        by_cases hstate : run.breaker.state = .halfOpen
        · rw [if_pos hstate] at hflag
          exact h.finish hcall hflag (hcareful hstate _ hcall)
        · rw [if_neg hstate, h.flag_eq_false hstate] at hflag
          exact h.finish hcall hflag (.inr (h.probes_eq_zero hstate))
    · exact h

theorem fails_fast (run : BreakerRun) (action : BreakerStep) : run.FailsFast action := by
  cases action with
  | execute now => exact CircuitBreaker.execute_opened
  | resolve _ => trivial
  | reject _ _ => trivial
  | getState _ => trivial
  | reset => trivial

/-- In a careful step only a call started after the breaker last opened
closes it. -/
theorem keptByStale (run : BreakerRun) (action : BreakerStep) (h : run.ProbeFlag)
    (hcareful : run.Careful action) : run.KeptByStale action := by
  intro call hcall hstale hclosed
  cases action with
  | execute now => cases hcall
  | getState now => cases hcall
  | reset => cases hcall
  | resolve position =>
    have hget : run.inFlight[position]? = some call := hcall
    obtain ⟨hlt, -⟩ := List.getElem?_eq_some_iff.mp hget
    simp only [step, if_pos hlt] at hclosed
    have hstate : (if run.breaker.state = .halfOpen then .closed else run.breaker.state)
        = BreakerState.closed := by
      rw [← CircuitBreaker.resolved_state]
      exact hclosed
    by_cases hhalf : run.breaker.state = .halfOpen
    · have hopenings := h.openings call (List.mem_of_getElem? hget) (hcareful hhalf call hget)
      omega
    · rwa [if_neg hhalf] at hstate
  | reject position now =>
    have hget : run.inFlight[position]? = some call := hcall
    obtain ⟨hlt, -⟩ := List.getElem?_eq_some_iff.mp hget
    simp only [step, if_pos hlt] at hclosed
    rcases run.breaker.rejected_state now with hopened | ⟨-, hkept⟩
    · exact absurd (hopened.symm.trans hclosed) (by decide)
    · exact hkept.symm.trans hclosed

theorem guarded_of_probeFlag (run : BreakerRun) (action : BreakerStep) (h : run.ProbeFlag)
    (hcareful : run.Careful action) : run.Guarded action :=
  ⟨fails_fast run action, (step_probeFlag run action h hcareful).oneProbe,
    keptByStale run action h hcareful⟩

/-- In a run of careful steps every step is guarded. -/
theorem careful_run_guarded (options : CircuitBreakerOptions) (actions : List BreakerStep)
    (hcareful : Along step Careful (start options) actions) :
    Along step Guarded (start options) actions :=
  Along.imp step_probeFlag guarded_of_probeFlag (start_probeFlag options) hcareful

/-- A call that fails opens the breaker, a probe closes it again. -/
theorem careful_run_guarded_probe :
    Along step Guarded (start { failureThreshold := some 1, resetTimeout := some 10 })
      [.execute 0, .execute 0, .reject 0 5, .execute 8, .reject 0 9, .execute 19, .resolve 0,
        .execute 20] :=
  careful_run_guarded { failureThreshold := some 1, resetTimeout := some 10 }
    [.execute 0, .execute 0, .reject 0 5, .execute 8, .reject 0 9, .execute 19, .resolve 0,
      .execute 20] (by decide +kernel)

/-- Two calls start while the breaker is closed. The first fails and opens
it; after the timeout a probe starts, and the second call closes the
breaker while the probe is in flight. -/
theorem stale_success_closes :
    ¬ ∀ (options : CircuitBreakerOptions) (actions : List BreakerStep),
      Along step Guarded (start options) actions := by
  intro h
  have hrun := h { failureThreshold := some 1, resetTimeout := some 10 }
    [.execute 0, .execute 0, .reject 0 0, .execute 10, .resolve 0]
  exact absurd hrun (by decide +kernel)

/-- A failure of such a call clears the flag of the probe, and the next
probe starts beside it. -/
example : ¬ Along step Guarded (start { failureThreshold := some 1, resetTimeout := some 10 })
    [.execute 0, .execute 0, .reject 0 0, .execute 10, .reject 0 10, .execute 20] := by
  decide +kernel

/-! ### Every run recovers -/

/-- A closed breaker counts fewer failures than the threshold, and the flag
is set only while the half-open state has a call in flight. -/
structure Recovers (run : BreakerRun) : Prop where
  failures : run.breaker.state = .closed → run.breaker.consecutiveFailures = 0 ∨
    (run.breaker.consecutiveFailures : ℚ) < run.breaker.threshold
  flag : run.breaker.halfOpenProbeInFlight = true →
    run.breaker.state = .halfOpen ∧ run.inFlight ≠ []

theorem rejected_failures {breaker : CircuitBreaker} {now : ℤ}
    (h : (breaker.rejected now).state = .closed) :
    ((breaker.rejected now).consecutiveFailures : ℚ) < (breaker.rejected now).threshold := by
  simp only [CircuitBreaker.rejected] at h ⊢
  split at h
  · cases h
  · rename_i hstate
    split at h
    · cases h
    · rename_i hbelow
      rw [if_neg hstate, if_neg hbelow]
      exact not_le.mp hbelow

theorem step_recovers (run : BreakerRun) (action : BreakerStep) (h : run.Recovers) :
    (run.step action).Recovers := by
  obtain ⟨hfailures, hflag⟩ := h
  cases action with
  | execute now =>
    constructor <;> grind [step, CircuitBreaker.execute, CircuitBreaker.checkHalfOpenTransition,
      List.append_eq_nil_iff]
  | getState now =>
    constructor <;> grind [step, CircuitBreaker.getState, CircuitBreaker.checkHalfOpenTransition]
  | reset => constructor <;> grind [step, CircuitBreaker.reset]
  | resolve position => constructor <;> grind [step, finish, CircuitBreaker.resolved]
  | reject position now =>
    constructor
    · grind [step, finish, rejected_failures]
    · grind [step, finish, CircuitBreaker.rejected]

/-- No run leaves the breaker stuck: with no call in flight it lets the
next one through, unless it is open and the timeout has not elapsed. -/
theorem every_run_recovers (options : CircuitBreakerOptions) (actions : List BreakerStep) :
    let run := actions.foldl step (start options)
    (run.breaker.state = .closed → run.breaker.consecutiveFailures = 0 ∨
      (run.breaker.consecutiveFailures : ℚ) < run.breaker.threshold) ∧
    (run.inFlight = [] → ∀ now, (run.breaker.execute now).2 = .ok () ∨
      run.breaker.state = .opened ∧ run.breaker.elapsed now = false) := by
  have h : (actions.foldl step (start options)).Recovers := by
    refine Along.invariant (P := fun _ _ => True) (fun run action h _ => step_recovers run action h)
      ⟨fun _ => .inl rfl, by intro h; cases h⟩ (.of_forall (fun _ _ => trivial) _ _)
  refine ⟨h.failures, fun hempty now => ?_⟩
  have hflag := h.flag
  grind [CircuitBreaker.execute, CircuitBreaker.checkHalfOpenTransition]

end Vertz.Spec.BreakerRun
