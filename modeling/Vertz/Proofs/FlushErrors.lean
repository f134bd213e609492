import Vertz.Proofs.DisposedEffects

/-!
# `Vertz.Proofs.FlushErrors`: what a throwing effect loses
-/

namespace Vertz.Proofs

open Vertz.Ui.Runtime Vertz.Spec RuntimeGraph RuntimeOps DisposedEffects List

namespace FlushErrors

variable {V E W : Type} [Inhabited V] [DecidableEq V] {m : Machine V E W} {id : ℕ}

/-! ### The batch depth -/

theorem depth_step (h : m.graph.batchDepth = m.stack.countP isBatch) :
    m.step.graph.batchDepth = m.step.stack.countP isBatch := by
  rw [step_graph, depth_apply]
  have hstacked := step_stacked m
  generalize op m = o at hstacked
  generalize m.step.stack = stack at hstacked
  have hloop : ∀ {frame : Frame V E W} {queue}, loopFrame frame = some queue →
      isBatch frame = false := by
    intro frame queue hframe
    cases frame <;> first | rfl | cases hframe
  have hother : ∀ {frame : Frame V E W} {rest}, isBatch frame = false →
      (frame :: rest).countP isBatch = rest.countP isBatch := by
    intro frame rest hframe
    rw [countP_cons, hframe]
    rfl
  have hpush : ∀ {top : Frame V E W} {next}, isBatch top = false →
      m.graph.batchDepth = (top :: .call next :: m.stack).countP isBatch := by
    intro top next htop
    rw [hother htop, hother rfl, h]
  have hpop : ∀ {top rest}, m.stack = top :: rest → isBatch top = false →
      m.graph.batchDepth = rest.countP isBatch := by
    intro top rest hstack htop
    rw [h, hstack, hother htop]
  have hbatch : ∀ {rest}, m.stack = .batch :: rest →
      m.graph.batchDepth - 1 = rest.countP isBatch := by
    intro rest hstack
    rw [h, hstack, countP_cons]
    rfl
  cases hstacked with
  | kept hpassing _ => cases o <;> first | exact h | cases hpassing
  | announces next hannounces _ => cases o <;> first | exact hpush rfl | cases hannounces
  | goesOn hstack => exact hpop hstack rfl
  | computes j fn hbody _ =>
    rw [hother rfl]
    exact h
  | computed outcome hstack => exact hpop hstack rfl
  | spawns fn next => exact hpush rfl
  | runs hbody hstack hqueue hqueue' _ =>
    rw [hother rfl, hother (hloop hqueue')]
    exact hpop hstack (hloop hqueue)
  | skips hbody hstack hqueue hqueue' _ =>
    rw [hother (hloop hqueue')]
    exact hpop hstack (hloop hqueue)
  | ran hstack => exact hpop hstack rfl
  | untracks next => exact hpush rfl
  | untracked hstack => exact hpop hstack rfl
  | batches next =>
    show m.graph.batchDepth + 1 = _
    rw [countP_cons, hother rfl, h]
    rfl
  | batched hstack _ => exact hbatch hstack
  | flushes saved hstack _ =>
    rw [hother rfl]
    exact hbatch hstack
  | drains hstack =>
    rw [hother rfl]
    exact hpop hstack rfl
  | flushed hstack _ => exact hpop hstack rfl
  | aborted hstack _ => exact hpop hstack rfl
  | hydrated next => exact hpush rfl
  | undeferred hstack => exact hpop hstack rfl

theorem depth_run (main : Code V E W) (host : W) (n : ℕ) :
    (runOf main host n).graph.batchDepth = (runOf main host n).stack.countP isBatch := by
  induction n with
  | zero => rfl
  | succ n ih => exact depth_step ih

/-! ### One step of a live effect -/

theorem live_step (h : EffectLive m id) : EffectLive m.step id ∨ EffectDisposed m.step id := by
  obtain ⟨fn, hbody⟩ := h
  obtain ⟨body, hbody', hchange⟩ := bodyAt_apply (op m) hbody
  rw [← step_graph] at hbody'
  cases hchange with
  | same => exact Or.inl ⟨fn, hbody'⟩
  | disposed _ => exact Or.inr ⟨fn, hbody'⟩

theorem startsRun_op (h : StartsRun m id) :
    op m = .beginRun id ∧ EffectLive m id ∨ ∃ fn, op m = .spawn fn ∧ id = m.graph.nodes.length := by
  obtain ⟨prev, rest, hstack', hlength⟩ := h
  have hstacked := step_stacked m
  rw [hstack'] at hstacked hlength
  generalize op m = o at hstacked ⊢
  generalize hnew : Frame.run id prev :: rest = stack at hstacked hlength
  have hpop : ∀ {top}, m.stack = top :: stack → False := by
    intro top hstack
    rw [hstack, length_cons] at hlength
    omega
  have hsame : ∀ {top loop rest'}, m.stack = top :: rest' → stack = loop :: rest' → False := by
    intro top loop rest' hstack hloop
    rw [hstack, hloop] at hlength
    simp at hlength
  cases hstacked with
  | kept _ _ => exact absurd hlength (Nat.lt_irrefl _)
  | goesOn hstack => exact (hpop hstack).elim
  | computes j fn hbody _ => cases hnew
  | computed outcome hstack => exact (hpop hstack).elim
  | spawns fn next =>
    cases hnew
    exact Or.inr ⟨fn, rfl, rfl⟩
  | runs hbody hstack _ _ _ =>
    cases hnew
    exact Or.inl ⟨rfl, _, hbody⟩
  | skips _ hstack _ _ _ => exact (hsame hstack rfl).elim
  | ran hstack => exact (hpop hstack).elim
  | untracks next => cases hnew
  | untracked hstack => exact (hpop hstack).elim
  | batches next => cases hnew
  | batched hstack _ => exact (hpop hstack).elim
  | flushes saved hstack _ => cases hnew
  | announces next _ _ => cases hnew
  | drains hstack => cases hnew
  | flushed hstack _ => exact (hpop hstack).elim
  | aborted hstack _ => exact (hpop hstack).elim
  | hydrated next => cases hnew
  | undeferred hstack => exact (hpop hstack).elim

theorem live_of_startsRun (h : StartsRun m id) : EffectLive m.step id := by
  rcases startsRun_op h with ⟨hop, fn, hbody⟩ | ⟨fn, hop, rfl⟩
  · refine ⟨fn, ?_⟩
    rw [step_graph, hop]
    exact (bodyAt_beginRun _ _ _).trans hbody
  · refine ⟨fn, ?_⟩
    rw [step_graph, hop]
    refine (bodyAt_beginRun _ _ _).trans ?_
    rw [bodyAt_create, if_pos rfl]

theorem startsRun_of_beginRun (hop : op m = .beginRun id) : StartsRun m id := by
  have hstacked := step_stacked m
  generalize hstack' : m.step.stack = stack at hstacked
  rw [hop] at hstacked
  cases hstacked with
  | runs hbody hstack _ _ _ =>
    refine ⟨_, _, hstack', ?_⟩
    rw [hstack', hstack]
    simp
  | kept hpassing _ => cases hpassing
  | announces _ hannounces _ => cases hannounces

/-- A live effect stays subscribed until it runs again. -/
theorem subscribed_or_started {source : ℕ} (hlive : EffectLive m id)
    (h : id ∈ m.graph.subscribersOf source) :
    id ∈ m.step.graph.subscribersOf source ∨ EffectDisposed m.step id ∨ StartsRun m id := by
  by_cases hcleared : (op m).cleared m.graph = some id
  · refine Or.inr ?_
    obtain ⟨fn, hbody⟩ := hlive
    cases hop : op m with
    | dispose j =>
      rw [hop] at hcleared
      cases hcleared
      refine Or.inl ⟨fn, ?_⟩
      rw [step_graph, hop]
      show (m.graph.dispose id).bodyAt id = _
      rw [bodyAt_dispose, if_pos rfl, hbody]
      rfl
    | spawn fn' =>
      rw [hop] at hcleared
      cases hcleared
      exact absurd (lt_length _ _ hbody) (Nat.lt_irrefl _)
    | beginCompute j =>
      have hstacked := step_stacked m
      generalize m.step.stack = stack at hstacked
      rw [hop] at hcleared hstacked
      cases hcleared
      cases hstacked with
      | computes _ _ hcomputed _ =>
        rw [hbody] at hcomputed
        cases hcomputed
      | kept hpassing _ => cases hpassing
      | announces _ hannounces _ => cases hannounces
    | beginRun j =>
      rw [hop] at hcleared
      cases hcleared
      exact Or.inr (startsRun_of_beginRun hop)
    | _ =>
      rw [hop] at hcleared
      cases hcleared
  · refine Or.inl ?_
    rw [step_graph, mem_subscribersOf_apply]
    exact Or.inl ⟨h, fun hkept => hcleared hkept.1⟩

/-- A write queues the live effects that are subscribed. -/
theorem pending_of_write {source : ℕ} {new : V} (hop : op m = .write source new)
    (hlive : EffectLive m id) (h : id ∈ m.graph.subscribersOf source) :
    id ∈ m.step.graph.pendingEffects := by
  obtain ⟨fn, hbody⟩ := hlive
  have hannounced :=
    notifySubscribers_announced (m.graph.modifyBody source (.setValue new)) source
  have htold := hannounced.told id (by rw [subscribersOf_modifyBody]; exact h)
  obtain ⟨body, hbody', hchange⟩ := bodyAt_apply (op m) hbody
  rw [step_graph]
  rw [hop] at hbody' hchange ⊢
  have hafter : (Op.apply m.graph (.write source new)).bodyAt id = some (.effect fn false) := by
    cases hchange with
    | same => exact hbody'
    | disposed hdispose => cases hdispose
  rw [RuntimeGraph.Told] at htold
  replace hafter :
      ((m.graph.modifyBody source (.setValue new)).notifySubscribers source).bodyAt id =
        some (.effect fn false) := hafter
  rw [hafter] at htold
  exact htold

/-- A signal keeps its value, or the effects that are subscribed are
queued. -/
theorem signal_step {source : ℕ} {value : V} (hlive : EffectLive m id)
    (h : id ∈ m.graph.subscribersOf source) (hbody : m.graph.bodyAt source = some (.signal value)) :
    m.step.graph.bodyAt source = some (.signal value) ∨ EffectQueued m.step id := by
  obtain ⟨body, hbody', hchange⟩ := bodyAt_apply (op m) hbody
  rw [← step_graph] at hbody'
  cases hchange with
  | same => exact Or.inl hbody'
  | value hop => exact Or.inr (Or.inl (pending_of_write hop hlive h))

omit [DecidableEq V] in
theorem op_drain {o : Op V E W} {stack : List (Frame V E W)} (h : Stacked m o stack)
    (hop : o = .drain) :
    ∃ saved rest, m.stack = .flush [] saved :: rest ∧
      stack = .flush m.graph.pendingEffects saved :: rest := by
  subst hop
  cases h with
  | drains hstack => exact ⟨_, _, hstack, rfl⟩
  | kept hpassing _ => cases hpassing
  | announces _ hannounces _ => cases hannounces

/-- An effect in the queue of a flush stays there, or it is its turn. -/
theorem inFlush_step (hloses : LosesNone m) (hlive : EffectLive m id) (h : InFlush m.stack id) :
    InFlush m.step.stack id ∨ id ∈ m.step.graph.pendingEffects ∨ StartsRun m id := by
  obtain ⟨queue, saved, hframe, hid⟩ := h
  have hstacked := step_stacked m
  generalize hop : op m = o at hstacked
  generalize hstack' : m.step.stack = stack at hstacked
  have hkept : ∀ {top rest}, m.stack = top :: rest → Frame.flush queue saved ≠ top →
      InFlush rest id := by
    intro top rest hstack hne
    rw [hstack] at hframe
    rcases mem_cons.mp hframe with heq | hmem
    · exact absurd heq hne
    · exact ⟨queue, saved, hmem, hid⟩
  have hcons : ∀ {frame rest}, InFlush rest id → InFlush (V := V) (E := E) (W := W) (frame :: rest) id := by
    intro frame rest ⟨queue', saved', hmem, hid'⟩
    exact ⟨queue', saved', mem_cons_of_mem frame hmem, hid'⟩
  have hpush : ∀ {top : Frame V E W} {next}, InFlush (top :: .call next :: m.stack) id :=
    hcons (hcons ⟨queue, saved, hframe, hid⟩)
  have hturn : ∀ {j queue' loop loop' rest}, m.stack = loop :: rest →
      loopFrame loop = some (j :: queue') →
      (∀ s, loop = .flush (j :: queue') s → loop' = .flush queue' s) →
      id = j ∨ InFlush (loop' :: rest) id := by
    intro j queue' loop loop' rest hstack hqueue hflush
    by_cases heq : Frame.flush queue saved = loop
    · subst heq
      cases hqueue
      rcases mem_cons.mp hid with rfl | hid
      · exact Or.inl rfl
      · exact Or.inr ⟨queue', saved, hflush saved rfl ▸ mem_cons_self, hid⟩
    · exact Or.inr (hcons (hkept hstack heq))
  cases hstacked with
  | kept _ _ => exact Or.inl ⟨queue, saved, hframe, hid⟩
  | goesOn hstack => exact Or.inl (hkept hstack nofun)
  | computes j fn hbody _ => exact Or.inl (hcons ⟨queue, saved, hframe, hid⟩)
  | computed outcome hstack => exact Or.inl (hkept hstack nofun)
  | spawns fn next => exact Or.inl hpush
  | runs hbody hstack hqueue _ hflush =>
    rcases hturn hstack hqueue hflush with rfl | hwaits
    · exact Or.inr (Or.inr (startsRun_of_beginRun hop))
    · exact Or.inl (hcons hwaits)
  | skips hbody hstack hqueue _ hflush =>
    rcases hturn hstack hqueue hflush with rfl | hwaits
    · obtain ⟨fn, hfn⟩ := hlive
      exact absurd hfn (hbody fn)
    · exact Or.inl hwaits
  | ran hstack => exact Or.inl (hkept hstack nofun)
  | untracks next => exact Or.inl hpush
  | untracked hstack => exact Or.inl (hkept hstack nofun)
  | batches next => exact Or.inl hpush
  | batched hstack _ => exact Or.inl (hkept hstack nofun)
  | flushes saved' hstack _ => exact Or.inl (hcons (hkept hstack nofun))
  | announces next _ _ => exact Or.inl hpush
  | drains hstack =>
    refine Or.inl (hcons (hkept hstack ?_))
    intro heq
    cases heq
    cases hid
  | flushed hstack _ =>
    refine Or.inl (hkept hstack ?_)
    intro heq
    cases heq
    cases hid
  | @aborted queue' saved' _ e hstack hcontrol =>
    by_cases heq : (Frame.flush queue saved : Frame V E W) = .flush queue' saved'
    · cases heq
      rcases hloses e queue saved _ hcontrol hstack id hid hlive with hpending | hwaits
      · refine Or.inr (Or.inl ?_)
        rw [step_graph, hop]
        exact hpending
      · exact Or.inl hwaits
    · exact Or.inl (hkept hstack heq)
  | hydrated next => exact Or.inl hpush
  | undeferred hstack => exact Or.inl (hkept hstack nofun)

theorem queued_step (hloses : LosesNone m) (hlive : EffectLive m id) (h : EffectQueued m id) :
    EffectQueued m.step id ∨ StartsRun m id := by
  rcases h with hpending | hflush
  · by_cases hop : op m = .drain
    · obtain ⟨saved, rest, _, hstack'⟩ := op_drain (step_stacked m) hop
      refine Or.inl (Or.inr ⟨m.graph.pendingEffects, saved, ?_, hpending⟩)
      rw [hstack']
      exact mem_cons_self
    · refine Or.inl (Or.inl ?_)
      rw [step_graph]
      exact pending_apply hop hpending
  · rcases inFlush_step hloses hlive hflush with hflush | hpending | hstarts
    · exact Or.inl (Or.inr hflush)
    · exact Or.inl (Or.inl hpending)
    · exact Or.inr hstarts

/-! ### Runs -/

variable {main : Code V E W} {host : W}

theorem live_later {n n' : ℕ} (hle : n ≤ n') (h : EffectLive (runOf main host n) id) :
    EffectLive (runOf main host n') id ∨ EffectDisposed (runOf main host n') id := by
  induction hle with
  | refl => exact Or.inl h
  | step _ ih =>
    rcases ih with hlive | hdisposed
    · exact live_step hlive
    · exact Or.inr (disposed_step hdisposed)

theorem served_run (hloses : ∀ n, LosesNone (runOf main host n)) {n n' : ℕ} (hle : n ≤ n')
    (hlive : EffectLive (runOf main host n) id) (h : EffectQueued (runOf main host n) id) :
    EffectQueued (runOf main host n') id ∨ EffectDisposed (runOf main host n') id ∨
      ∃ j, n ≤ j ∧ j < n' ∧ StartsRun (runOf main host j) id := by
  induction hle with
  | refl => exact Or.inl h
  | @step n' hle ih =>
    rcases ih with hqueued | hdisposed | ⟨j, hj, hjn, hstarts⟩
    · rcases live_later hle hlive with hlive' | hdisposed
      · rcases queued_step (hloses n') hlive' hqueued with hqueued | hstarts
        · exact Or.inl hqueued
        · exact Or.inr (Or.inr ⟨n', hle, Nat.lt_succ_self n', hstarts⟩)
      · exact Or.inr (Or.inl (disposed_step hdisposed))
    · exact Or.inr (Or.inl (disposed_step hdisposed))
    · exact Or.inr (Or.inr ⟨j, hj, Nat.lt_succ_of_lt hjn, hstarts⟩)

/-- An effect that read a signal and did not run again since: it is
subscribed, and queued if the value is another one now. -/
def Current (m : Machine V E W) (id source : ℕ) (value : V) : Prop :=
  EffectLive m id ∧ id ∈ m.graph.subscribersOf source ∧
    (EffectQueued m id ∨ m.graph.bodyAt source = some (.signal value))

theorem current_read {source : ℕ} {value : V} (hlive : EffectLive m id)
    (h : ReadsSignal m id source value) :
    Current m.step id source value ∨ EffectDisposed m.step id := by
  obtain ⟨⟨next, hcontrol⟩, hcurrent, hbody⟩ := h
  have hop : op m = .track source := by simp only [op, hcontrol, callOp, hbody]
  refine (live_step hlive).imp_left fun hlive' => ⟨hlive', ?_, Or.inr ?_⟩
  · rw [step_graph, mem_subscribersOf_apply]
    exact Or.inr ⟨hop, hcurrent, lt_length _ _ hbody⟩
  · rw [step_graph, hop]
    exact (bodyAt_track _ _ _).trans hbody

theorem current_step' {source : ℕ} {value : V} (hloses : LosesNone m)
    (h : Current m id source value) (hstarts : ¬ StartsRun m id) :
    Current m.step id source value ∨ EffectDisposed m.step id := by
  obtain ⟨hlive, hsub, hvalue⟩ := h
  rcases live_step hlive with hlive' | hdisposed
  · rcases subscribed_or_started hlive hsub with hsub' | hdisposed | hstarted
    · refine Or.inl ⟨hlive', hsub', ?_⟩
      rcases hvalue with hqueued | hbody
      · rcases queued_step hloses hlive hqueued with hqueued | hstarted
        · exact Or.inl hqueued
        · exact absurd hstarted hstarts
      · exact (signal_step hlive hsub hbody).symm
    · exact Or.inr hdisposed
    · exact absurd hstarted hstarts
  · exact Or.inr hdisposed

theorem final_run (hloses : ∀ n, LosesNone (runOf main host n)) {k j n source : ℕ} {value : V}
    (hk : k < j) (hj : j < n) (hstarts : StartsRun (runOf main host k) id)
    (hlast : ∀ i, k < i → i < n → ¬ StartsRun (runOf main host i) id)
    (hread : ReadsSignal (runOf main host j) id source value) :
    Current (runOf main host n) id source value ∨ EffectDisposed (runOf main host n) id := by
  induction n with
  | zero => cases hj
  | succ n ih =>
    rcases Nat.lt_succ_iff_lt_or_eq.mp hj with hjn | rfl
    · have hbefore := ih hjn fun i hi hin => hlast i hi (Nat.lt_succ_of_lt hin)
      rcases hbefore with hcurrent | hdisposed
      · exact current_step' (hloses n) hcurrent (hlast n (by omega) (Nat.lt_succ_self n))
      · exact Or.inr (disposed_step hdisposed)
    · have hlive : EffectLive (runOf main host (k + 1)) id := live_of_startsRun hstarts
      rcases live_later hk hlive with hlive' | hdisposed
      · exact current_read hlive' hread
      · exact Or.inr (disposed_step hdisposed)

theorem written_run (main : Code V E W) (host : W) (n source : ℕ)
    (h : Assigns (runOf main host n) source) :
    (∀ id ∈ (runOf main host n).graph.subscribersOf source, EffectLive (runOf main host n) id →
      EffectQueued (runOf main host (n + 1)) id) ∧
    ((runOf main host n).stack.countP isBatch = 0 →
      ∃ saved stack, (runOf main host (n + 1)).stack = .flush [] saved :: stack) := by
  have hdepth := depth_run main host n
  rw [runOf_succ]
  generalize runOf main host n = m at *
  obtain ⟨old, new, next, hcontrol, hbody, hne⟩ := h
  have hop : op m = .write source new := by simp only [op, hcontrol, callOp, hbody, hne, if_false]
  constructor
  · intro id hid hlive
    exact Or.inl (pending_of_write hop hlive hid)
  · intro hbatches
    have hstacked := step_stacked m
    rw [hop] at hstacked
    generalize m.step.stack = stack at hstacked
    cases hstacked with
    | kept _ hflushes =>
      have hzero := hflushes trivial
      rw [depth_apply] at hzero
      exact absurd (hdepth.trans hbatches) hzero
    | announces next _ _ => exact ⟨_, _, rfl⟩

/-- A program delivers exactly if, whenever an error reaches a flush,
every live effect left in its queue is queued elsewhere too. -/
theorem delivered_iff (main : Code V E W) (host : W) :
    Delivered main host ↔ ∀ n, LosesNone (runOf main host n) := by
  constructor
  · intro hdelivered n e queue saved stack hcontrol hstack id hid hlive
    have hstep : (runOf main host n).step = { runOf main host n with stack := stack } := by
      simp only [Machine.step, hcontrol, Machine.unwind, hstack]
    have hqueued : EffectQueued (runOf main host n) id := by
      refine Or.inr ⟨queue, saved, ?_, hid⟩
      rw [hstack]
      exact mem_cons_self
    rcases hdelivered.served n (n + 1) id (Nat.le_succ n) hlive hqueued with
      hqueued' | ⟨fn, hdisposed⟩ | ⟨j, hj, hjn, hstarts⟩
    · rw [runOf_succ, hstep] at hqueued'
      exact hqueued'
    · rw [runOf_succ, hstep] at hdisposed
      obtain ⟨fn', hbody⟩ := hlive
      replace hdisposed : (runOf main host n).graph.bodyAt id = some (.effect fn true) := hdisposed
      rw [hbody] at hdisposed
      cases hdisposed
    · have hjn' : j = n := by omega
      subst hjn'
      obtain ⟨_, _, _, hlength⟩ := hstarts
      rw [hstep, hstack] at hlength
      exact absurd hlength (by simp)
  · intro hloses
    refine ⟨?_, ?_, depth_run main host, written_run main host⟩
    · intro n n' id hle hlive hqueued
      exact served_run hloses hle hlive hqueued
    · intro k j n id source value hk hj hstarts hlast hread
      rcases final_run hloses hk hj hstarts hlast hread with ⟨_, _, hvalue⟩ | hdisposed
      · rcases hvalue with hqueued | hbody
        · exact Or.inl hqueued
        · exact Or.inr (Or.inr hbody)
      · exact Or.inr (Or.inl hdisposed)

/-- Two effects read signal 0, and the first of them throws when it has
been written. -/
def throwingEffect : Code ℕ Unit Unit :=
  .signal 0 fun source =>
    .domEffect
      (.read source fun value =>
        match value with
        | .ok 1 => .throw ()
        | _ => .done 0)
      fun _ =>
        .domEffect (.read source fun _ => .done 0) fun _ => .write source 1 fun _ => .done 0

theorem second_effect_lost : ¬ Delivered throwingEffect () := by
  intro hdelivered
  -- After 20 steps the error reaches the flush that has effect 2 left.
  have hqueued : EffectQueued (runOf throwingEffect () 20) 2 :=
    Or.inr ⟨[2], .ok 0, mem_cons_self, mem_singleton_self 2⟩
  rcases hdelivered.served 20 21 2 (Nat.le_succ 20) ⟨_, rfl⟩ hqueued with
    (hpending | ⟨queue, saved, hframe, _⟩) | ⟨fn, hdisposed⟩ | ⟨j, hj, hjn, prev, stack, hstack, _⟩
  · cases hpending
  · cases hframe with
    | tail _ hrest => cases hrest
  · cases hdisposed
  · obtain rfl : j = 20 := by omega
    cases hstack

end FlushErrors

end Vertz.Proofs
