import Vertz.Proofs.RuntimeOps
import Vertz.Spec.EffectRuns

/-!
# `Vertz.Proofs.DisposedEffects`: disposed effects and their subscriptions
-/

namespace Vertz.Proofs

open Vertz.Ui.Runtime Vertz.Spec RuntimeGraph RuntimeOps

namespace DisposedEffects

variable {V E W : Type} [Inhabited V] [DecidableEq V]

/-! ### The invariant -/

/-- The subscriber a frame restores. -/
def restored : Frame V E W → Option ℕ
  | .compute _ prev _ => prev
  | .run _ prev => prev
  | .untrack prev => prev
  | _ => none

/-- Every subscriber has its sources recorded, and the current subscriber
and those that come back are there. -/
structure Linked (m : Machine V E W) : Prop where
  sources : ∀ source id, id ∈ m.graph.subscribersOf source → source ∈ m.graph.sourcesOf id
  current : ∀ id, m.graph.currentSubscriber = some id → id < m.graph.nodes.length
  frames : ∀ frame ∈ m.stack, ∀ id, restored frame = some id → id < m.graph.nodes.length

omit [Inhabited V] [DecidableEq V] in
theorem linked_start (main : Code V E W) (host : W) : Linked (Machine.start main host) where
  sources := fun _ _ h => nomatch h
  current := fun _ h => nomatch h
  frames := fun _ h => nomatch h

variable {m : Machine V E W}

theorem sources_step (h : Linked m) :
    ∀ source id, id ∈ m.step.graph.subscribersOf source → source ∈ m.step.graph.sourcesOf id := by
  intro source id hid
  rw [step_graph, mem_subscribersOf_apply] at hid
  rw [step_graph, mem_sourcesOf_apply]
  rcases hid with ⟨hid, hkept⟩ | ⟨htrack, hcurrent, _⟩
  · have hsource := h.sources source id hid
    exact Or.inl ⟨hsource, fun hcleared => hkept ⟨hcleared, hsource⟩⟩
  · exact Or.inr ⟨htrack, hcurrent, h.current id hcurrent⟩

omit [Inhabited V] [DecidableEq V] in
theorem restored_new {op : Op V E W} {frame : Frame V E W} (h : NewFrame m op frame) :
    restored frame = none ∨ restored frame = m.graph.currentSubscriber := by
  cases h with
  | call next => exact Or.inl rfl
  | compute _ _ => exact Or.inr rfl
  | run _ _ => exact Or.inr rfl
  | firstRun _ => exact Or.inr rfl
  | untrack => exact Or.inr rfl
  | batch => exact Or.inl rfl
  | loop hqueue =>
    cases frame <;> first | exact Or.inl rfl | cases hqueue

theorem frames_step (h : Linked m) :
    ∀ frame ∈ m.step.stack, ∀ id, restored frame = some id → id < m.step.graph.nodes.length := by
  intro frame hframe id hid
  have hlength : m.graph.nodes.length ≤ m.step.graph.nodes.length := by
    rw [step_graph]
    exact length_le_apply (op m)
  refine Nat.lt_of_lt_of_le ?_ hlength
  rcases (step_stacked m).mem hframe with hold | hnew
  · exact h.frames frame hold id hid
  · rcases restored_new hnew with hnone | hcurrent
    · rw [hnone] at hid
      cases hid
    · exact h.current id (hcurrent ▸ hid)

theorem current_step (h : Linked m) :
    ∀ id, m.step.graph.currentSubscriber = some id → id < m.step.graph.nodes.length := by
  intro id hid
  have hgraph := step_graph m
  have hlength : m.graph.nodes.length ≤ m.step.graph.nodes.length := by
    rw [hgraph]
    exact length_le_apply (op m)
  rw [hgraph, current_apply] at hid
  have hstacked := step_stacked m
  generalize op m = o at hid hstacked hgraph
  generalize m.step.stack = stack at hstacked
  have hframe : ∀ {frame rest}, m.stack = frame :: rest → restored frame = some id →
      id < m.step.graph.nodes.length := by
    intro frame rest hstack hrestored
    have hmem : frame ∈ m.stack := hstack ▸ List.mem_cons_self
    exact Nat.lt_of_lt_of_le (h.frames frame hmem id hrestored) hlength
  have hsame : m.graph.currentSubscriber = some id → id < m.step.graph.nodes.length :=
    fun hcurrent => Nat.lt_of_lt_of_le (h.current id hcurrent) hlength
  cases hstacked with
  | kept hpassing _ => cases o <;> first | exact hsame hid | cases hpassing
  | computes j fn hbody _ =>
    cases hid
    exact Nat.lt_of_lt_of_le (lt_length _ _ hbody) hlength
  | computed outcome hstack => exact hframe hstack hid
  | spawns fn next =>
    cases hid
    rw [hgraph]
    show _ < ((m.graph.create _).beginRun _).nodes.length
    rw [length_beginRun, length_create]
    exact Nat.lt_succ_self _
  | runs hbody _ _ _ _ =>
    cases hid
    exact Nat.lt_of_lt_of_le (lt_length _ _ hbody) hlength
  | ran hstack => exact hframe hstack hid
  | untracks next => cases hid
  | untracked hstack => exact hframe hstack hid
  | announces next hannounces _ => cases o <;> first | exact hsame hid | cases hannounces
  | _ => exact hsame hid

theorem linked_step (h : Linked m) : Linked m.step :=
  ⟨sources_step h, current_step h, frames_step h⟩

theorem linked_run (main : Code V E W) (host : W) (n : ℕ) : Linked (runOf main host n) := by
  induction n with
  | zero => exact linked_start main host
  | succ n ih => exact linked_step ih

/-! ### One step -/

variable {m : Machine V E W} {id : ℕ}

omit [Inhabited V] in
theorem op_dispose_of (h : DisposesEffect m id) {fn : Code V E W} {disposed : Bool}
    (hbody : m.graph.bodyAt id = some (.effect fn disposed)) : op m = .dispose id := by
  obtain ⟨next, hcontrol⟩ := h
  simp only [op, hcontrol, callOp, hbody]

theorem disposed_step (h : EffectDisposed m id) : EffectDisposed m.step id := by
  obtain ⟨fn, hbody⟩ := h
  obtain ⟨body, hbody', hchange⟩ := bodyAt_apply (op m) hbody
  rw [← step_graph] at hbody'
  cases hchange with
  | same => exact ⟨fn, hbody'⟩
  | disposed _ => exact ⟨fn, hbody'⟩

theorem disposed_back (h : EffectDisposed m.step id) :
    EffectDisposed m id ∨
      DisposesEffect m id ∧ ∃ fn disposed, m.graph.bodyAt id = some (.effect fn disposed) := by
  obtain ⟨fn, hafter⟩ := h
  rw [step_graph] at hafter
  cases hbody : m.graph.bodyAt id with
  | none =>
    obtain ⟨_, hcreated⟩ := created_apply (op m) hbody hafter
    cases hcreated
  | some body =>
    obtain ⟨body', hbody', hchange⟩ := bodyAt_apply (op m) hbody
    rw [hafter] at hbody'
    cases hbody'
    cases hchange with
    | same => exact Or.inl ⟨fn, hbody⟩
    | disposed hop => exact Or.inr ⟨op_dispose hop, fn, _, rfl⟩

theorem cleared_disposed (h : EffectDisposed m id) (hcleared : (op m).cleared m.graph = some id) :
    DisposesEffect m id := by
  obtain ⟨fn, hbody⟩ := h
  have hstacked := step_stacked m
  generalize m.step.stack = stack at hstacked
  cases hop : op m with
  | dispose j =>
    rw [hop] at hcleared
    cases hcleared
    exact op_dispose hop
  | spawn fn' =>
    rw [hop] at hcleared
    cases hcleared
    exact absurd (lt_length _ _ hbody) (Nat.lt_irrefl _)
  | beginCompute j =>
    rw [hop] at hcleared hstacked
    cases hcleared
    cases hstacked with
    | computes _ _ hcomputed _ =>
      rw [hbody] at hcomputed
      cases hcomputed
    | kept hpassing _ => cases hpassing
    | announces _ hannounces _ => cases hannounces
  | beginRun j =>
    rw [hop] at hcleared hstacked
    cases hcleared
    cases hstacked with
    | runs hlive _ _ _ _ =>
      rw [hbody] at hlive
      cases hlive
    | kept hpassing _ => cases hpassing
    | announces _ hannounces _ => cases hannounces
  | _ =>
    rw [hop] at hcleared
    cases hcleared

theorem subscribed_step (h : EffectDisposed m id) (hsub : Subscribed m id)
    (hkept : ¬ DisposesEffect m id) : Subscribed m.step id := by
  obtain ⟨source, hsource⟩ := hsub
  refine ⟨source, ?_⟩
  rw [step_graph, mem_subscribersOf_apply]
  exact Or.inl ⟨hsource, fun hcleared => hkept (cleared_disposed h hcleared.1)⟩

theorem subscribed_back (hlinked : Linked m) (h : EffectDisposed m.step id)
    (hsub : Subscribed m.step id) :
    EffectDisposed m id ∧ (ReadsFor m id ∨ Subscribed m id ∧ ¬ DisposesEffect m id) := by
  obtain ⟨source, hsource⟩ := hsub
  rw [step_graph, mem_subscribersOf_apply] at hsource
  -- Disposing an effect takes it out of the subscribers it had.
  have hdisposes : ∀ fn disposed, m.graph.bodyAt id = some (.effect fn disposed) →
      ¬ DisposesEffect m id := by
    intro fn disposed hbody hdis
    have hop := op_dispose_of hdis hbody
    rw [hop] at hsource
    rcases hsource with ⟨hold, hkept⟩ | ⟨htrack, _⟩
    · exact hkept ⟨rfl, hlinked.sources source id hold⟩
    · cases htrack
  have hbefore : EffectDisposed m id := by
    rcases disposed_back h with hbefore | ⟨hdis, fn, disposed, hbody⟩
    · exact hbefore
    · exact absurd hdis (hdisposes fn disposed hbody)
  obtain ⟨fn, hbody⟩ := hbefore
  refine ⟨⟨fn, hbody⟩, ?_⟩
  rcases hsource with ⟨hold, _⟩ | ⟨htrack, hcurrent, _⟩
  · exact Or.inr ⟨⟨source, hold⟩, hdisposes fn true hbody⟩
  · obtain ⟨next, hcontrol, hreadable⟩ := op_track htrack
    exact Or.inl ⟨source, next, hcontrol, hcurrent, hreadable⟩

/-- A disposed effect is not run. -/
theorem not_running_step (h : EffectDisposed m id) (hrun : ¬ EffectRunning m id) :
    ¬ EffectRunning m.step id := by
  intro ⟨prev, hframe⟩
  obtain ⟨fn, hbody⟩ := h
  rcases (step_stacked m).mem hframe with hold | hnew
  · exact hrun ⟨prev, hold⟩
  · cases hnew with
    | run _ hlive =>
      rw [hbody] at hlive
      cases hlive
    | firstRun _ => exact absurd (lt_length _ _ hbody) (Nat.lt_irrefl _)
    | loop hqueue => cases hqueue

/-! ### Runs -/

variable (main : Code V E W) (host : W)

theorem runOf_succ (n : ℕ) : runOf main host (n + 1) = (runOf main host n).step := rfl

variable {main host}

theorem disposed_later {n n' : ℕ} (hle : n ≤ n') (h : EffectDisposed (runOf main host n) id) :
    EffectDisposed (runOf main host n') id := by
  induction hle with
  | refl => exact h
  | step _ ih => exact disposed_step ih

theorem not_running_later {n n' : ℕ} (hle : n ≤ n') (h : EffectDisposed (runOf main host n) id)
    (hrun : ¬ EffectRunning (runOf main host n) id) : ¬ EffectRunning (runOf main host n') id := by
  induction hle with
  | refl => exact hrun
  | step hle ih => exact not_running_step (disposed_later hle h) ih

/-- A late read subscribes the effect until the next disposal. -/
theorem subscribed_after {k n : ℕ} (h : EffectDisposed (runOf main host k) id)
    (hread : ReadsFor (runOf main host k) id) (hlt : k < n)
    (hkept : ∀ j, k < j → j < n → ¬ DisposesEffect (runOf main host j) id) :
    Subscribed (runOf main host n) id := by
  induction n with
  | zero => cases hlt
  | succ n ih =>
    rcases Nat.lt_succ_iff_lt_or_eq.mp hlt with hkn | rfl
    · have hsub := ih hkn fun j hj hjn => hkept j hj (Nat.lt_succ_of_lt hjn)
      exact subscribed_step (disposed_later (Nat.le_of_lt hkn) h) hsub
        (hkept n hkn (Nat.lt_succ_self n))
    · obtain ⟨source, next, hcontrol, hcurrent, hreadable⟩ := hread
      refine ⟨source, ?_⟩
      rw [runOf_succ, step_graph, mem_subscribersOf_apply]
      refine Or.inr ⟨?_, hcurrent, ?_⟩
      · rcases hreadable with ⟨value, hbody⟩ | ⟨fn, cached, state, hbody⟩
        · simp only [op, hcontrol, callOp, hbody]
        · simp only [op, hcontrol, callOp, hbody]
      · rcases hreadable with ⟨value, hbody⟩ | ⟨fn, cached, state, hbody⟩
        · exact lt_length _ _ hbody
        · exact lt_length _ _ hbody

/-- A disposed effect that is subscribed made a late read, and was not
disposed since. -/
theorem late_read {n : ℕ} (h : EffectDisposed (runOf main host n) id)
    (hsub : Subscribed (runOf main host n) id) :
    ∃ k < n, EffectDisposed (runOf main host k) id ∧ ReadsFor (runOf main host k) id ∧
      ∀ j, k < j → j < n → ¬ DisposesEffect (runOf main host j) id := by
  induction n with
  | zero =>
    obtain ⟨source, hsource⟩ := hsub
    cases hsource
  | succ n ih =>
    obtain ⟨hbefore, hread | ⟨hsub', hkept⟩⟩ := subscribed_back (linked_run main host n) h hsub
    · refine ⟨n, Nat.lt_succ_self n, hbefore, hread, ?_⟩
      intro j hj hjn
      omega
    · obtain ⟨k, hk, hdisposed, hread, hsince⟩ := ih hbefore hsub'
      refine ⟨k, Nat.lt_succ_of_lt hk, hdisposed, hread, ?_⟩
      intro j hj hjn
      rcases Nat.lt_succ_iff_lt_or_eq.mp hjn with hlt | rfl
      · exact hsince j hj hlt
      · exact hkept

/-- The disposed effects of a program stay unsubscribed, and are not run
again, exactly if every value that a disposed effect reads is followed by
another disposal before its run is over. -/
theorem disposedUnsubscribed_iff (main : Code V E W) (host : W) :
    DisposedUnsubscribed main host ↔ LateReadsCleared main host := by
  constructor
  · intro hclaim k id hdisposed hread n hn hrun
    by_contra hnone
    push Not at hnone
    have hsub := subscribed_after hdisposed hread hn hnone
    exact (hclaim n id (disposed_later (Nat.le_of_lt hn) hdisposed) hrun).1 hsub
  · intro hcleared n id hdisposed hrun
    constructor
    · intro hsub
      obtain ⟨k, hk, hbefore, hread, hsince⟩ := late_read hdisposed hsub
      obtain ⟨j, hj, hjn, hdisposes⟩ := hcleared k id hbefore hread n hk hrun
      exact hsince j hj hjn hdisposes
    · intro n' hn'
      exact not_running_later hn' hdisposed hrun

/-- An effect that disposes itself and then reads a signal: `trigger` is
object 0, the signal it reads is object 1, the effect is object 2. -/
def ownDisposal : Code ℕ Unit Unit :=
  .signal 0 fun trigger =>
    .signal 0 fun source =>
      .domEffect
        (.read trigger fun value =>
          match value with
          | .ok 1 => .dispose 2 (.read source fun _ => .done 0)
          | _ => .done 0)
        fun _ => .write trigger 1 fun _ => .done 0

theorem own_disposal_subscribed : ¬ DisposedUnsubscribed ownDisposal () := by
  intro hclaim
  have h := (hclaim 40 2 ⟨_, rfl⟩ (fun ⟨_, hrun⟩ => nomatch hrun)).1
  exact h ⟨1, List.mem_singleton_self 2⟩

end DisposedEffects

end Vertz.Proofs
