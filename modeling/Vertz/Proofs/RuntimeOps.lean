import Vertz.Proofs.RuntimeGraph

/-!
# `Vertz.Proofs.RuntimeOps`: the graph operation of a step

Every step of a machine does one operation on the graph: `Machine.op` is
that operation and `step_graph` says so. What a step does to the bodies
and the edges is then a matter of the operation alone.
-/

namespace Vertz.Proofs

open Vertz.Ui.Runtime.Machine
open Vertz.Ui.Runtime RuntimeGraph

namespace RuntimeOps

inductive Op (V E W : Type) where
  | idle
  | hydrate (isHydrating : Bool) (deferredEffects : Option (List ℕ))
  | createSignal (initial : V)
  | createComputed (fn : Code V E W)
  /-- An effect whose first run is deferred. -/
  | defer (fn : Code V E W) (effects : List ℕ)
  /-- An effect that runs at once. -/
  | spawn (fn : Code V E W)
  | track (id : ℕ)
  | beginCompute (id : ℕ)
  | endCompute (id : ℕ) (prev : Option ℕ) (outcome : Except E V)
  | beginRun (id : ℕ)
  | setSubscriber (sub : Option ℕ)
  | write (id : ℕ) (newValue : V)
  | notify (id : ℕ)
  | enterBatch
  | leaveBatch
  | dispose (id : ℕ)
  /-- The queue is taken by a flush. -/
  | drain

variable {V E W : Type} [Inhabited V]

def Op.apply (g : NodeGraph V (Code V E W)) : Op V E W → NodeGraph V (Code V E W)
  | .idle => g
  | .hydrate isHydrating deferredEffects =>
    { g with isHydrating := isHydrating, deferredEffects := deferredEffects }
  | .createSignal initial => g.create (.signal initial)
  | .createComputed fn => g.create (.computed fn default .dirty)
  | .defer fn effects =>
    { g.create (.effect fn false) with deferredEffects := some (effects ++ [g.nodes.length]) }
  | .spawn fn => (g.create (.effect fn false)).beginRun g.nodes.length
  | .track id => g.track id
  | .beginCompute id => g.beginCompute id
  | .endCompute id prev outcome => g.endCompute id prev outcome
  | .beginRun id => g.beginRun id
  | .setSubscriber sub => g.setSubscriber sub
  | .write id newValue => (g.modifyBody id (.setValue newValue)).notifySubscribers id
  | .notify id => g.notifySubscribers id
  | .enterBatch => g.enterBatch
  | .leaveBatch => g.leaveBatch
  | .dispose id => g.dispose id
  | .drain => { g with pendingEffects := [] }

/-- The operation of a call. -/
def callOp [DecidableEq V] (g : NodeGraph V (Code V E W)) : Code V E W → Op V E W
  | .read id _ =>
    match g.bodyAt id with
    | some (.signal _) => .track id
    | some (.computed _ _ _) => .track id
    | _ => .idle
  | .peek id _ =>
    match g.bodyAt id with
    | some (.computed _ _ state) => if state = .clean then .idle else .beginCompute id
    | _ => .idle
  | .write id newValue _ =>
    match g.bodyAt id with
    | some (.signal value) => if value = newValue then .idle else .write id newValue
    | _ => .idle
  | .notify id _ =>
    match g.bodyAt id with
    | some (.signal _) => .notify id
    | _ => .idle
  | .untrack _ _ => .setSubscriber none
  | .batch _ _ => .enterBatch
  | .signal initial _ => .createSignal initial
  | .computed fn _ => .createComputed fn
  | .domEffect fn _ => .spawn fn
  | .deferredDomEffect fn _ =>
    match g.isHydrating, g.deferredEffects with
    | true, some effects => .defer fn effects
    | _, _ => .spawn fn
  | .dispose id _ =>
    match g.bodyAt id with
    | some (.effect _ _) => .dispose id
    | _ => .idle
  | .startHydration _ => if g.isHydrating then .idle else .hydrate true (some [])
  | .endHydration _ => .hydrate false none
  | .pauseHydration _ => .hydrate false g.deferredEffects
  | .resumeHydration _ => .hydrate true g.deferredEffects
  | .discardDeferredEffects _ => .hydrate g.isHydrating none
  | _ => .idle

/-- An effect taken from a queue. -/
def queuedOp (g : NodeGraph V (Code V E W)) (id : ℕ) : Op V E W :=
  match g.bodyAt id with
  | some (.effect _ false) => .beginRun id
  | _ => .idle

/-- The operation of a call that returns or throws. -/
def unwindOp (g : NodeGraph V (Code V E W)) (outcome : Except E V) :
    List (Frame V E W) → Op V E W
  | .compute id prev _ :: _ => .endCompute id prev outcome
  | .run _ prev :: _ => .setSubscriber prev
  | .untrack prev :: _ => .setSubscriber prev
  | .batch :: _ => .leaveBatch
  | .flush queue _ :: _ =>
    match outcome, queue with
    | .error _, _ => .idle
    | .ok _, id :: _ => queuedOp g id
    | .ok _, [] => if g.pendingEffects = [] then .idle else .drain
  | .deferred (id :: _) :: _ => queuedOp g id
  | _ => .idle

def op [DecidableEq V] (m : Machine V E W) : Op V E W :=
  match m.control with
  | .run code => callOp m.graph code
  | .unwind outcome => unwindOp m.graph outcome m.stack

theorem runQueued_graph (m : Machine V E W) (id : ℕ) (loop : Frame V E W)
    (stack : List (Frame V E W)) :
    (m.runQueued id loop stack).graph = (queuedOp m.graph id).apply m.graph := by
  rw [runQueued, queuedOp]
  rcases m.graph.bodyAt id with _ | _ | _ | ⟨fn, _ | _⟩ <;> rfl

theorem notifySubscribers_graph (m : Machine V E W) (id : ℕ)
    (next : Except E V → Code V E W) :
    (m.notifySubscribers id next).graph = m.graph.notifySubscribers id := by
  simp only [notifySubscribers]
  split <;> rfl

theorem call_graph [DecidableEq V] (m : Machine V E W) (code : Code V E W) :
    (m.call code).graph = (callOp m.graph code).apply m.graph := by
  cases code with
  | done value => rfl
  | throw error => rfl
  | read id next =>
    simp only [call, callOp]
    rcases m.graph.bodyAt id with _ | _ | _ | _ <;> rfl
  | peek id next =>
    simp only [call, getValue, callOp]
    rcases m.graph.bodyAt id with _ | _ | ⟨fn, cached, state⟩ | _
    · rfl
    · rfl
    · by_cases hstate : state = .clean
      · simp only [hstate, if_true]
        rfl
      · simp only [hstate, if_false]
        rfl
    · rfl
  | write id newValue next =>
    simp only [call, callOp]
    rcases m.graph.bodyAt id with _ | value | _ | _
    · rfl
    · by_cases hvalue : value = newValue
      · simp only [hvalue, if_true]
        rfl
      · simp only [hvalue, if_false, notifySubscribers_graph]
        rfl
    · rfl
    · rfl
  | notify id next =>
    simp only [call, callOp]
    rcases m.graph.bodyAt id with _ | _ | _ | _
    · rfl
    · exact notifySubscribers_graph m id next
    · rfl
    · rfl
  | untrack fn next => rfl
  | batch fn next => rfl
  | signal initial next => rfl
  | computed fn next => rfl
  | domEffect fn next => rfl
  | deferredDomEffect fn next =>
    rcases hhydrating : m.graph.isHydrating with _ | _ <;>
      rcases hdeferred : m.graph.deferredEffects with _ | effects <;>
      simp [call, callOp, NodeGraph.queueDeferredEffect, NodeGraph.create, Op.apply,
        goOn, enter, hhydrating, hdeferred]
  | dispose id next =>
    simp only [call, callOp]
    rcases m.graph.bodyAt id with _ | _ | _ | _ <;> rfl
  | startHydration next =>
    simp only [call, callOp]
    by_cases h : m.graph.isHydrating = true
    · simp only [h, if_true]
      rfl
    · simp only [h]
      rfl
  | endHydration next => rfl
  | pauseHydration next => rfl
  | resumeHydration next => rfl
  | discardDeferredEffects next => rfl
  | host update next => rfl

theorem unwind_graph (m : Machine V E W) (outcome : Except E V) :
    (m.unwind outcome).graph = (unwindOp m.graph outcome m.stack).apply m.graph := by
  unfold unwind unwindOp
  rcases hstack : m.stack with _ | ⟨frame, stack⟩
  · rfl
  · cases frame with
    | call next => rfl
    | compute id prev next => rfl
    | run id prev => rfl
    | untrack prev => rfl
    | batch =>
      simp only
      by_cases h : m.graph.leaveBatch.batchDepth = 0
      · rw [if_pos h]
        rfl
      · rw [if_neg h]
        rfl
    | flush queue saved =>
      cases outcome with
      | error e => rfl
      | ok value =>
        cases queue with
        | nil =>
          simp only
          by_cases h : m.graph.pendingEffects = []
          · rw [if_pos h, if_pos h]
            rfl
          · rw [if_neg h, if_neg h]
            rfl
        | cons id queue => exact runQueued_graph m id _ stack
    | deferred queue =>
      cases queue with
      | nil => rfl
      | cons id queue => exact runQueued_graph m id _ stack

theorem step_graph [DecidableEq V] (m : Machine V E W) : m.step.graph = (op m).apply m.graph := by
  rw [step, op]
  cases m.control with
  | run code => exact call_graph m code
  | unwind outcome => exact unwind_graph m outcome

/-! ### Which call does it -/

omit [Inhabited V] in
theorem queuedOp_cases (g : NodeGraph V (Code V E W)) (id : ℕ) :
    (queuedOp g id : Op V E W) = .idle ∨ (queuedOp g id : Op V E W) = .beginRun id := by
  rw [queuedOp]
  rcases g.bodyAt id with _ | _ | _ | ⟨fn, _ | _⟩
  · exact Or.inl rfl
  · exact Or.inl rfl
  · exact Or.inl rfl
  · exact Or.inr rfl
  · exact Or.inl rfl

/-- The operations that only a call of user code does. -/
def Op.Called : Op V E W → Prop
  | .track _ => True
  | .write _ _ => True
  | .notify _ => True
  | .dispose _ => True
  | .createComputed _ => True
  | .defer _ _ => True
  | .spawn _ => True
  | .beginCompute _ => True
  | _ => False

omit [Inhabited V] in
theorem unwindOp_not_called (g : NodeGraph V (Code V E W)) (outcome : Except E V)
    (stack : List (Frame V E W)) : ¬ (unwindOp g outcome stack).Called := by
  have hqueued : ∀ id, ¬ (queuedOp g id : Op V E W).Called := by
    intro id hcalled
    rcases queuedOp_cases g id with h | h <;> (rw [h] at hcalled; exact hcalled)
  unfold unwindOp
  repeat' split
  all_goals first
    | exact fun h => h
    | exact hqueued _

section

variable [DecidableEq V] {m : Machine V E W}

omit [Inhabited V]

theorem op_eq_callOp (h : (op m).Called) :
    ∃ code, m.control = .run code ∧ op m = callOp m.graph code := by
  rw [op] at h ⊢
  cases hcontrol : m.control with
  | run code => exact ⟨code, rfl, rfl⟩
  | unwind outcome =>
    rw [hcontrol] at h
    exact absurd h (unwindOp_not_called m.graph outcome m.stack)

theorem op_dispose {id : ℕ} (h : op m = .dispose id) :
    ∃ next, m.control = .run (.dispose id next) := by
  obtain ⟨code, hcontrol, hcode⟩ := op_eq_callOp (m := m) (by rw [h]; trivial)
  rw [h] at hcode
  cases code with
  | dispose j next =>
    simp only [callOp] at hcode
    split at hcode
    · cases hcode
      exact ⟨next, hcontrol⟩
    · cases hcode
  | _ =>
    simp only [callOp] at hcode
    repeat' split at hcode
    all_goals cases hcode

theorem op_track {id : ℕ} (h : op m = .track id) :
    ∃ next, m.control = .run (.read id next) ∧
      ((∃ value, m.graph.bodyAt id = some (.signal value)) ∨
        ∃ fn cached state, m.graph.bodyAt id = some (.computed fn cached state)) := by
  obtain ⟨code, hcontrol, hcode⟩ := op_eq_callOp (m := m) (by rw [h]; trivial)
  rw [h] at hcode
  cases code with
  | read j next =>
    simp only [callOp] at hcode
    split at hcode
    · next value hbody =>
        cases hcode
        exact ⟨next, hcontrol, Or.inl ⟨value, hbody⟩⟩
    · next fn cached state hbody =>
        cases hcode
        exact ⟨next, hcontrol, Or.inr ⟨fn, cached, state, hbody⟩⟩
    · cases hcode
  | _ =>
    simp only [callOp] at hcode
    repeat' split at hcode
    all_goals cases hcode

theorem op_beginCompute {id : ℕ} (h : op m = .beginCompute id) :
    ∃ next fn cached state, m.control = .run (.peek id next) ∧
      m.graph.bodyAt id = some (.computed fn cached state) ∧ state ≠ .clean := by
  obtain ⟨code, hcontrol, hcode⟩ := op_eq_callOp (m := m) (by rw [h]; trivial)
  rw [h] at hcode
  cases code with
  | peek j next =>
    simp only [callOp] at hcode
    split at hcode
    · next fn cached state hbody =>
        split at hcode
        · cases hcode
        · next hstate =>
            cases hcode
            exact ⟨next, fn, cached, state, hcontrol, hbody, hstate⟩
    · cases hcode
  | _ =>
    simp only [callOp] at hcode
    repeat' split at hcode
    all_goals cases hcode

theorem op_createComputed {fn : Code V E W} (h : op m = .createComputed fn) :
    ∃ next, m.control = .run (.computed fn next) := by
  obtain ⟨code, hcontrol, hcode⟩ := op_eq_callOp (m := m) (by rw [h]; trivial)
  rw [h] at hcode
  cases code with
  | computed fn' next =>
    cases hcode
    exact ⟨next, hcontrol⟩
  | _ =>
    simp only [callOp] at hcode
    repeat' split at hcode
    all_goals cases hcode

end

/-- The call that creates an effect, run at once or deferred. -/
def CreatesEffect (m : Machine V E W) (fn : Code V E W) : Prop :=
  (∃ next, m.control = .run (.domEffect fn next)) ∨
    ∃ next, m.control = .run (.deferredDomEffect fn next)

omit [Inhabited V] in
theorem op_createsEffect [DecidableEq V] {m : Machine V E W} {fn : Code V E W}
    (h : op m = .spawn fn ∨ ∃ effects, op m = .defer fn effects) : CreatesEffect m fn := by
  have hcalled : (op m).Called := by
    rcases h with h | ⟨effects, h⟩ <;> (rw [h]; trivial)
  obtain ⟨code, hcontrol, hcode⟩ := op_eq_callOp hcalled
  rw [hcode] at h
  cases code with
  | domEffect fn' next =>
    rcases h with h | ⟨effects, h⟩
    · cases h
      exact Or.inl ⟨next, hcontrol⟩
    · cases h
  | deferredDomEffect fn' next =>
    refine Or.inr ⟨next, ?_⟩
    simp only [callOp] at h
    split at h
    · rcases h with h | ⟨effects, h⟩
      · cases h
      · cases h
        exact hcontrol
    · rcases h with h | ⟨effects, h⟩
      · cases h
        exact hcontrol
      · cases h
  | _ =>
    simp only [callOp] at h
    repeat' split at h
    all_goals rcases h with h | ⟨effects, h⟩ <;> cases h

/-! ### Edges -/

/-- The subscriber that loses its sources. -/
def Op.cleared (g : NodeGraph V (Code V E W)) : Op V E W → Option ℕ
  | .spawn _ => some g.nodes.length
  | .beginCompute id => some id
  | .beginRun id => some id
  | .dispose id => some id
  | _ => none

theorem edges_eq (g : NodeGraph V (Code V E W)) (op : Op V E W) (hcleared : op.cleared g = none)
    (htrack : ∀ id, op ≠ .track id) (j : ℕ) :
    (op.apply g).subscribersOf j = g.subscribersOf j ∧
      (op.apply g).sourcesOf j = g.sourcesOf j := by
  cases op with
  | idle => exact ⟨rfl, rfl⟩
  | hydrate b effects => exact ⟨rfl, rfl⟩
  | createSignal initial => exact ⟨subscribersOf_create g _ j, sourcesOf_create g _ j⟩
  | createComputed fn => exact ⟨subscribersOf_create g _ j, sourcesOf_create g _ j⟩
  | defer fn effects => exact ⟨subscribersOf_create g _ j, sourcesOf_create g _ j⟩
  | spawn fn => cases hcleared
  | track id => exact absurd rfl (htrack id)
  | beginCompute id => cases hcleared
  | endCompute id prev outcome =>
    exact ⟨subscribersOf_endCompute g id prev outcome j, sourcesOf_endCompute g id prev outcome j⟩
  | beginRun id => cases hcleared
  | setSubscriber sub => exact ⟨rfl, rfl⟩
  | write id newValue =>
    have h := notifySubscribers_announced (g.modifyBody id (.setValue newValue)) id
    exact ⟨(h.subscribers j).trans (subscribersOf_modifyBody g id _ j),
      (h.sources j).trans (sourcesOf_modifyBody g id _ j)⟩
  | notify id =>
    have h := notifySubscribers_announced g id
    exact ⟨h.subscribers j, h.sources j⟩
  | enterBatch => exact ⟨rfl, rfl⟩
  | leaveBatch => exact ⟨rfl, rfl⟩
  | dispose id => cases hcleared
  | drain => exact ⟨rfl, rfl⟩

/-- The subscribers after an operation: those a read added, and without
the one that lost its sources. -/
theorem mem_subscribersOf_apply (g : NodeGraph V (Code V E W)) (op : Op V E W) (j k : ℕ) :
    k ∈ (op.apply g).subscribersOf j ↔
      k ∈ g.subscribersOf j ∧ ¬ (op.cleared g = some k ∧ j ∈ g.sourcesOf k) ∨
        op = .track j ∧ g.currentSubscriber = some k ∧ j < g.nodes.length := by
  have hclear : ∀ {op : Op V E W} (id : ℕ), op.cleared g = some id →
      (k ∈ (op.apply g).subscribersOf j ↔
        k ∈ g.subscribersOf j ∧ ¬ (k = id ∧ j ∈ g.sourcesOf id)) →
      (k ∈ (op.apply g).subscribersOf j ↔
        k ∈ g.subscribersOf j ∧ ¬ (op.cleared g = some k ∧ j ∈ g.sourcesOf k) ∨
          op = .track j ∧ g.currentSubscriber = some k ∧ j < g.nodes.length) := by
    intro op id hid hmem
    rw [hmem, hid]
    constructor
    · intro h
      refine Or.inl ⟨h.1, fun hk => h.2 ?_⟩
      obtain ⟨heq, hj⟩ := hk
      cases heq
      exact ⟨rfl, hj⟩
    · rintro (h | ⟨rfl, _⟩)
      · refine ⟨h.1, fun hk => h.2 ?_⟩
        obtain ⟨rfl, hj⟩ := hk
        exact ⟨rfl, hj⟩
      · cases hid
  cases op with
  | track id =>
    show k ∈ (g.track id).subscribersOf j ↔ _
    rw [mem_subscribersOf_track]
    constructor
    · rintro (h | ⟨hk, rfl, hlt⟩)
      · exact Or.inl ⟨h, by simp [Op.cleared]⟩
      · exact Or.inr ⟨rfl, hk, hlt⟩
    · rintro (h | ⟨heq, hk, hlt⟩)
      · exact Or.inl h.1
      · cases heq
        exact Or.inr ⟨hk, rfl, hlt⟩
  | spawn fn =>
    refine hclear g.nodes.length rfl ?_
    show k ∈ ((g.create _).beginRun g.nodes.length).subscribersOf j ↔ _
    rw [mem_subscribersOf_beginRun, subscribersOf_create, sourcesOf_create]
  | beginCompute id => exact hclear id rfl (mem_subscribersOf_beginCompute g id j k)
  | beginRun id => exact hclear id rfl (mem_subscribersOf_beginRun g id j k)
  | dispose id => exact hclear id rfl (RuntimeGraph.mem_subscribersOf_dispose g id j k)
  | _ =>
    rw [(edges_eq g _ rfl (by intro; nofun) j).1]
    simp [Op.cleared]

theorem mem_sourcesOf_apply (g : NodeGraph V (Code V E W)) (op : Op V E W) (k j : ℕ) :
    j ∈ (op.apply g).sourcesOf k ↔
      j ∈ g.sourcesOf k ∧ op.cleared g ≠ some k ∨
        op = .track j ∧ g.currentSubscriber = some k ∧ k < g.nodes.length := by
  have hclear : ∀ {op : Op V E W} (id : ℕ), op.cleared g = some id →
      (op.apply g).sourcesOf k = (if k = id then [] else g.sourcesOf k) →
      (j ∈ (op.apply g).sourcesOf k ↔
        j ∈ g.sourcesOf k ∧ op.cleared g ≠ some k ∨
          op = .track j ∧ g.currentSubscriber = some k ∧ k < g.nodes.length) := by
    intro op id hid hsources
    have htrack : op ≠ .track j := by
      rintro rfl
      cases hid
    rw [hsources, hid]
    by_cases hk : k = id
    · simp [hk, htrack]
    · simp [hk, Ne.symm hk, htrack]
  cases op with
  | track id =>
    show j ∈ (g.track id).sourcesOf k ↔ _
    rw [mem_sourcesOf_track]
    constructor
    · rintro (h | ⟨hk, rfl, hlt⟩)
      · exact Or.inl ⟨h, by simp [Op.cleared]⟩
      · exact Or.inr ⟨rfl, hk, hlt⟩
    · rintro (h | ⟨heq, hk, hlt⟩)
      · exact Or.inl h.1
      · cases heq
        exact Or.inr ⟨hk, rfl, hlt⟩
  | spawn fn =>
    refine hclear g.nodes.length rfl ?_
    show ((g.create _).beginRun g.nodes.length).sourcesOf k = _
    rw [sourcesOf_beginRun, sourcesOf_create]
  | beginCompute id => exact hclear id rfl (sourcesOf_beginCompute g id k)
  | beginRun id => exact hclear id rfl (sourcesOf_beginRun g id k)
  | dispose id => exact hclear id rfl (sourcesOf_dispose g id k)
  | _ =>
    rw [(edges_eq g _ rfl (by intro; nofun) k).2]
    simp [Op.cleared]

/-! ### Bodies -/

/-- How an operation can change an object. -/
inductive Change (op : Op V E W) (id : ℕ) :
    Body V (Code V E W) → Body V (Code V E W) → Prop where
  | same (body : Body V (Code V E W)) : Change op id body body
  | value {old new : V} (h : op = .write id new) : Change op id (.signal old) (.signal new)
  | marked {fn : Code V E W} {cached : V} {state : ComputedState}
      (h : ∃ source, op = .notify source ∨ ∃ new, op = .write source new) :
      Change op id (.computed fn cached state) (.computed fn cached .dirty)
  | began {fn : Code V E W} {cached : V} {state : ComputedState} (h : op = .beginCompute id) :
      Change op id (.computed fn cached state) (.computed fn cached .computing)
  | returned {fn : Code V E W} {cached new : V} {state : ComputedState} {prev : Option ℕ}
      (h : op = .endCompute id prev (.ok new)) :
      Change op id (.computed fn cached state) (.computed fn new .clean)
  | threw {fn : Code V E W} {cached : V} {state : ComputedState} {prev : Option ℕ} {e : E}
      (h : op = .endCompute id prev (.error e)) :
      Change op id (.computed fn cached state) (.computed fn cached .clean)
  | disposed {fn : Code V E W} {disposed : Bool} (h : op = .dispose id) :
      Change op id (.effect fn disposed) (.effect fn true)

/-- What an operation puts where nothing was. -/
inductive Created (g : NodeGraph V (Code V E W)) (op : Op V E W) :
    Body V (Code V E W) → Prop where
  | signal {initial : V} (h : op = .createSignal initial) : Created g op (.signal initial)
  | computed {fn : Code V E W} (h : op = .createComputed fn) :
      Created g op (.computed fn default .dirty)
  | deferred {fn : Code V E W} {effects : List ℕ} (h : op = .defer fn effects) :
      Created g op (.effect fn false)
  | effect {fn : Code V E W} (h : op = .spawn fn) : Created g op (.effect fn false)

variable {g : NodeGraph V (Code V E W)} {id : ℕ} {body : Body V (Code V E W)}

omit [Inhabited V] in
theorem change_of_notified {g' : NodeGraph V (Code V E W)} {op : Op V E W}
    (hop : ∃ source, op = .notify source ∨ ∃ new, op = .write source new)
    (h : Notified g g') (hbody : g.bodyAt id = some body) :
    ∃ body', g'.bodyAt id = some body' ∧ Change op id body body' := by
  rcases h.body id with hsame | ⟨fn, cached, state, hbefore, hafter⟩
  · exact ⟨body, hsame.trans hbody, .same body⟩
  · rw [hbody] at hbefore
    cases hbefore
    exact ⟨_, hafter, .marked hop⟩

theorem bodyAt_apply (op : Op V E W) (hbody : g.bodyAt id = some body) :
    ∃ body', (op.apply g).bodyAt id = some body' ∧ Change op id body body' := by
  have hlt := lt_length g id hbody
  have hne : id ≠ g.nodes.length := Nat.ne_of_lt hlt
  have hcreate : ∀ new, (g.create new).bodyAt id = some body := by
    intro new
    rw [bodyAt_create, if_neg hne, hbody]
  cases op with
  | createSignal initial => exact ⟨body, hcreate _, .same body⟩
  | createComputed fn => exact ⟨body, hcreate _, .same body⟩
  | defer fn effects => exact ⟨body, hcreate _, .same body⟩
  | spawn fn => exact ⟨body, (bodyAt_beginRun _ _ id).trans (hcreate _), .same body⟩
  | track j => exact ⟨body, (bodyAt_track g j id).trans hbody, .same body⟩
  | beginRun j => exact ⟨body, (bodyAt_beginRun g j id).trans hbody, .same body⟩
  | beginCompute j =>
    have h := bodyAt_beginCompute g j id
    by_cases hj : id = j
    · subst hj
      rw [if_pos rfl, hbody] at h
      cases body with
      | computed fn cached state => exact ⟨_, h, .began rfl⟩
      | signal value => exact ⟨_, h, .same _⟩
      | effect fn disposed => exact ⟨_, h, .same _⟩
    · rw [if_neg hj, hbody] at h
      exact ⟨body, h, .same body⟩
  | endCompute j prev outcome =>
    have h := bodyAt_endCompute g j prev outcome id
    by_cases hj : id = j
    · subst hj
      rw [if_pos rfl, hbody] at h
      cases body with
      | computed fn cached state =>
        cases outcome with
        | ok new => exact ⟨_, h, .returned rfl⟩
        | error e => exact ⟨_, h, .threw rfl⟩
      | signal value => exact ⟨_, h, by cases outcome <;> exact .same _⟩
      | effect fn disposed => exact ⟨_, h, by cases outcome <;> exact .same _⟩
    · rw [if_neg hj, hbody] at h
      exact ⟨body, h, .same body⟩
  | dispose j =>
    have h := bodyAt_dispose g j id
    by_cases hj : id = j
    · subst hj
      rw [if_pos rfl, hbody] at h
      cases body with
      | effect fn disposed => exact ⟨_, h, .disposed rfl⟩
      | signal value => exact ⟨_, h, .same _⟩
      | computed fn cached state => exact ⟨_, h, .same _⟩
    · rw [if_neg hj, hbody] at h
      exact ⟨body, h, .same body⟩
  | notify source =>
    exact change_of_notified ⟨source, Or.inl rfl⟩
      (notifySubscribers_announced g source).toNotified hbody
  | write source new =>
    have hnotified :=
      (notifySubscribers_announced (g.modifyBody source (.setValue new)) source).toNotified
    have hset := bodyAt_modifyBody g source (.setValue new) id
    by_cases hsource : id = source
    · subst hsource
      rw [if_pos rfl, hbody] at hset
      cases body with
      | signal old =>
        rcases hnotified.body id with hsame | ⟨fn, cached, state, hbefore, _⟩
        · exact ⟨_, hsame.trans hset, .value rfl⟩
        · rw [hset] at hbefore
          cases hbefore
      | computed fn cached state =>
        exact change_of_notified ⟨id, Or.inr ⟨new, rfl⟩⟩ hnotified hset
      | effect fn disposed =>
        exact change_of_notified ⟨id, Or.inr ⟨new, rfl⟩⟩ hnotified hset
    · rw [if_neg hsource, hbody] at hset
      exact change_of_notified ⟨source, Or.inr ⟨new, rfl⟩⟩ hnotified hset
  | _ => exact ⟨body, hbody, .same body⟩

theorem created_apply (op : Op V E W) (hbody : g.bodyAt id = none)
    (h : (op.apply g).bodyAt id = some body) : id = g.nodes.length ∧ Created g op body := by
  have hlength : g.nodes.length ≤ id := by
    by_contra hlt
    obtain ⟨b, hb⟩ := (bodyAt_isSome g id).mpr (Nat.lt_of_not_le hlt)
    rw [hbody] at hb
    cases hb
  have hcreate : ∀ new, (g.create new).bodyAt id = some body →
      id = g.nodes.length ∧ body = new := by
    intro new hnew
    rw [bodyAt_create] at hnew
    split at hnew
    · next hid =>
        cases hnew
        exact ⟨hid, rfl⟩
    · rw [hbody] at hnew
      cases hnew
  have hkept : (op.apply g).bodyAt id = none → id = g.nodes.length ∧ Created g op body := by
    intro hnone
    rw [hnone] at h
    cases h
  have hnotified : ∀ g', Notified g g' → g'.bodyAt id = none := by
    intro g' hg'
    rcases hg'.body id with hsame | ⟨_, _, _, hbefore, _⟩
    · exact hsame.trans hbody
    · rw [hbody] at hbefore
      cases hbefore
  cases op with
  | createSignal initial =>
    obtain ⟨hid, rfl⟩ := hcreate _ h
    exact ⟨hid, .signal rfl⟩
  | createComputed fn =>
    obtain ⟨hid, rfl⟩ := hcreate _ h
    exact ⟨hid, .computed rfl⟩
  | defer fn effects =>
    obtain ⟨hid, rfl⟩ := hcreate _ h
    exact ⟨hid, .deferred rfl⟩
  | spawn fn =>
    obtain ⟨hid, rfl⟩ := hcreate _ ((bodyAt_beginRun _ _ id).symm.trans h)
    exact ⟨hid, .effect rfl⟩
  | track j => exact hkept ((bodyAt_track g j id).trans hbody)
  | beginRun j => exact hkept ((bodyAt_beginRun g j id).trans hbody)
  | beginCompute j => exact hkept ((bodyAt_beginCompute g j id).trans (by simp [hbody]))
  | endCompute j prev outcome =>
    exact hkept ((bodyAt_endCompute g j prev outcome id).trans (by simp [hbody]))
  | dispose j => exact hkept ((bodyAt_dispose g j id).trans (by simp [hbody]))
  | notify source =>
    exact hkept (hnotified _ (notifySubscribers_announced g source).toNotified)
  | write source new =>
    have hset : (g.modifyBody source (.setValue new)).bodyAt id = none := by simp [hbody]
    have hn :=
      (notifySubscribers_announced (g.modifyBody source (.setValue new)) source).toNotified
    rcases hn.body id with hsame | ⟨_, _, _, hbefore, _⟩
    · exact hkept (hsame.trans hset)
    · rw [hset] at hbefore
      cases hbefore
  | _ => exact hkept hbody

theorem length_le_apply (op : Op V E W) : g.nodes.length ≤ (op.apply g).nodes.length := by
  by_contra hlt
  obtain ⟨body, hbody⟩ :=
    (bodyAt_isSome g (op.apply g).nodes.length).mpr (Nat.lt_of_not_le hlt)
  obtain ⟨body', hbody', _⟩ := bodyAt_apply op hbody
  exact Nat.lt_irrefl _ (lt_length _ _ hbody')

/-! ### The module variables -/

/-- The current subscriber after an operation. -/
def Op.current (g : NodeGraph V (Code V E W)) : Op V E W → Option ℕ
  | .spawn _ => some g.nodes.length
  | .beginCompute id => some id
  | .beginRun id => some id
  | .endCompute _ prev _ => prev
  | .setSubscriber sub => sub
  | _ => g.currentSubscriber

theorem current_apply (g : NodeGraph V (Code V E W)) (op : Op V E W) :
    (op.apply g).currentSubscriber = op.current g := by
  cases op with
  | track id =>
    show (g.track id).currentSubscriber = g.currentSubscriber
    rw [NodeGraph.track]
    split <;> rfl
  | endCompute id prev outcome => cases outcome <;> rfl
  | write id newValue =>
    exact (notifySubscribers_announced (g.modifyBody id (.setValue newValue)) id).current
  | notify id => exact (notifySubscribers_announced g id).current
  | dispose id => exact currentSubscriber_clearSources _ id
  | _ => rfl

/-- The batch depth after an operation. -/
def Op.depth (g : NodeGraph V (Code V E W)) : Op V E W → ℕ
  | .enterBatch => g.batchDepth + 1
  | .leaveBatch => g.batchDepth - 1
  | _ => g.batchDepth

theorem depth_apply (g : NodeGraph V (Code V E W)) (op : Op V E W) :
    (op.apply g).batchDepth = op.depth g := by
  cases op with
  | spawn fn => exact batchDepth_clearSources _ _
  | track id =>
    show (g.track id).batchDepth = g.batchDepth
    rw [NodeGraph.track]
    split <;> rfl
  | beginCompute id => exact batchDepth_clearSources _ id
  | endCompute id prev outcome => cases outcome <;> rfl
  | beginRun id => exact batchDepth_clearSources g id
  | write id newValue =>
    exact (notifySubscribers_announced (g.modifyBody id (.setValue newValue)) id).depth
  | notify id => exact (notifySubscribers_announced g id).depth
  | dispose id => exact batchDepth_clearSources _ id
  | _ => rfl

/-- Only a flush takes effects from the queue. -/
theorem pending_apply {g : NodeGraph V (Code V E W)} {op : Op V E W} (hop : op ≠ .drain) {id : ℕ}
    (h : id ∈ g.pendingEffects) : id ∈ (op.apply g).pendingEffects := by
  cases op with
  | spawn fn =>
    show id ∈ ((g.create (.effect fn false)).clearSources g.nodes.length).pendingEffects
    rw [pendingEffects_clearSources]
    exact h
  | track j =>
    show id ∈ (g.track j).pendingEffects
    rw [NodeGraph.track]
    split <;> exact h
  | beginCompute j =>
    show id ∈ ((g.modifyBody j (.setState .computing)).clearSources j).pendingEffects
    rw [pendingEffects_clearSources]
    exact h
  | endCompute j prev outcome => cases outcome <;> exact h
  | beginRun j =>
    show id ∈ (g.clearSources j).pendingEffects
    rw [pendingEffects_clearSources]
    exact h
  | write j newValue =>
    exact (notifySubscribers_announced (g.modifyBody j (.setValue newValue)) j).pending id h
  | notify j => exact (notifySubscribers_announced g j).pending id h
  | dispose j =>
    show id ∈ ((g.modifyBody j Body.setDisposed).clearSources j).pendingEffects
    rw [pendingEffects_clearSources]
    exact h
  | drain => exact absurd rfl hop
  | _ => exact h

/-! ### The stack -/

/-- The operations of calls that leave no frame. -/
def Op.Passing : Op V E W → Prop
  | .idle => True
  | .hydrate _ _ => True
  | .createSignal _ => True
  | .createComputed _ => True
  | .defer _ _ => True
  | .track _ => True
  | .write _ _ => True
  | .notify _ => True
  | .dispose _ => True
  | _ => False

/-- The operations that can flush. -/
def Op.Announcing : Op V E W → Prop
  | .write _ _ => True
  | .notify _ => True
  | _ => False

/-- The loops that take effects from a queue. -/
def loopFrame : Frame V E W → Option (List ℕ)
  | .flush queue _ => some queue
  | .deferred queue => some queue
  | _ => none

/-- What a step does to the stack. -/
inductive Stacked (m : Machine V E W) : Op V E W → List (Frame V E W) → Prop where
  | kept {op : Op V E W} (h : op.Passing)
      (hdepth : op.Announcing → (op.apply m.graph).batchDepth ≠ 0) : Stacked m op m.stack
  | goesOn {next : Except E V → Code V E W} {stack : List (Frame V E W)}
      (h : m.stack = .call next :: stack) : Stacked m .idle stack
  | computes (id : ℕ) (fn : Code V E W) {cached : V} {state : ComputedState}
      {next : Except E V → Code V E W} (hbody : m.graph.bodyAt id = some (.computed fn cached state))
      (hstate : state ≠ .clean) :
      Stacked m (.beginCompute id) (.compute id m.graph.currentSubscriber next :: m.stack)
  | computed {id : ℕ} {prev : Option ℕ} {next : Except E V → Code V E W}
      {stack : List (Frame V E W)} (outcome : Except E V)
      (h : m.stack = .compute id prev next :: stack) : Stacked m (.endCompute id prev outcome) stack
  | spawns (fn : Code V E W) (next : Except E V → Code V E W) :
      Stacked m (.spawn fn)
        (.run m.graph.nodes.length m.graph.currentSubscriber :: .call next :: m.stack)
  | runs {id : ℕ} {fn : Code V E W} {loop loop' : Frame V E W} {queue : List ℕ}
      {stack : List (Frame V E W)} (hbody : m.graph.bodyAt id = some (.effect fn false))
      (h : m.stack = loop :: stack) (hloop : loopFrame loop = some (id :: queue))
      (hloop' : loopFrame loop' = some queue)
      (hflush : ∀ saved, loop = .flush (id :: queue) saved → loop' = .flush queue saved) :
      Stacked m (.beginRun id) (.run id m.graph.currentSubscriber :: loop' :: stack)
  | skips {id : ℕ} {loop loop' : Frame V E W} {queue : List ℕ} {stack : List (Frame V E W)}
      (hbody : ∀ fn, m.graph.bodyAt id ≠ some (.effect fn false))
      (h : m.stack = loop :: stack) (hloop : loopFrame loop = some (id :: queue))
      (hloop' : loopFrame loop' = some queue)
      (hflush : ∀ saved, loop = .flush (id :: queue) saved → loop' = .flush queue saved) :
      Stacked m .idle (loop' :: stack)
  | ran {id : ℕ} {prev : Option ℕ} {stack : List (Frame V E W)} (h : m.stack = .run id prev :: stack) :
      Stacked m (.setSubscriber prev) stack
  | untracks (next : Except E V → Code V E W) :
      Stacked m (.setSubscriber none) (.untrack m.graph.currentSubscriber :: .call next :: m.stack)
  | untracked {prev : Option ℕ} {stack : List (Frame V E W)} (h : m.stack = .untrack prev :: stack) :
      Stacked m (.setSubscriber prev) stack
  | batches (next : Except E V → Code V E W) :
      Stacked m .enterBatch (.batch :: .call next :: m.stack)
  | batched {stack : List (Frame V E W)} (h : m.stack = .batch :: stack)
      (hdepth : m.graph.leaveBatch.batchDepth ≠ 0) : Stacked m .leaveBatch stack
  | flushes {stack : List (Frame V E W)} (saved : Except E V) (h : m.stack = .batch :: stack)
      (hdepth : m.graph.leaveBatch.batchDepth = 0) :
      Stacked m .leaveBatch (.flush [] saved :: stack)
  | announces {op : Op V E W} (next : Except E V → Code V E W) (h : op.Announcing)
      (hdepth : (op.apply m.graph).batchDepth = 0) :
      Stacked m op (.flush [] (.ok default) :: .call next :: m.stack)
  | drains {saved : Except E V} {stack : List (Frame V E W)} (h : m.stack = .flush [] saved :: stack) :
      Stacked m .drain (.flush m.graph.pendingEffects saved :: stack)
  | flushed {saved : Except E V} {stack : List (Frame V E W)} (h : m.stack = .flush [] saved :: stack)
      (hpending : m.graph.pendingEffects = []) : Stacked m .idle stack
  | aborted {queue : List ℕ} {saved : Except E V} {stack : List (Frame V E W)} {e : E}
      (h : m.stack = .flush queue saved :: stack) (hcontrol : m.control = .unwind (.error e)) :
      Stacked m .idle stack
  | hydrated (next : Except E V → Code V E W) :
      Stacked m (.hydrate false none)
        (.deferred (m.graph.deferredEffects.getD []) :: .call next :: m.stack)
  | undeferred {stack : List (Frame V E W)} (h : m.stack = .deferred [] :: stack) :
      Stacked m .idle stack

/-- A call that leaves no frame and notifies nobody. -/
theorem Stacked.quiet {m : Machine V E W} {op : Op V E W} (h : op.Passing)
    (hquiet : ¬ op.Announcing) : Stacked m op m.stack :=
  .kept h fun ha => absurd ha hquiet

theorem runQueued_stacked (m : Machine V E W) {id : ℕ} {loop loop' : Frame V E W} {queue : List ℕ}
    {stack : List (Frame V E W)} (h : m.stack = loop :: stack)
    (hloop : loopFrame loop = some (id :: queue)) (hloop' : loopFrame loop' = some queue)
    (hflush : ∀ saved, loop = .flush (id :: queue) saved → loop' = .flush queue saved) :
    Stacked m (queuedOp m.graph id) (m.runQueued id loop' stack).stack := by
  rw [runQueued, queuedOp]
  rcases hbody : m.graph.bodyAt id with _ | _ | _ | ⟨fn, _ | _⟩
  · exact .skips (by simp [hbody]) h hloop hloop' hflush
  · exact .skips (by simp [hbody]) h hloop hloop' hflush
  · exact .skips (by simp [hbody]) h hloop hloop' hflush
  · exact .runs hbody h hloop hloop' hflush
  · exact .skips (by simp [hbody]) h hloop hloop' hflush

theorem call_stacked [DecidableEq V] (m : Machine V E W) (code : Code V E W) :
    Stacked m (callOp m.graph code) (m.call code).stack := by
  cases code with
  | done value => exact .quiet trivial not_false
  | throw error => exact .quiet trivial not_false
  | read id next =>
    simp only [call, callOp]
    rcases m.graph.bodyAt id with _ | _ | _ | _ <;> exact .quiet trivial not_false
  | peek id next =>
    simp only [call, getValue, callOp]
    rcases hbody : m.graph.bodyAt id with _ | _ | ⟨fn, cached, state⟩ | _
    · exact .quiet trivial not_false
    · exact .quiet trivial not_false
    · by_cases hstate : state = .clean
      · simp only [hstate, if_true]
        exact .quiet trivial not_false
      · simp only [hstate, if_false]
        exact .computes id fn hbody hstate
    · exact .quiet trivial not_false
  | write id newValue next =>
    simp only [call, callOp]
    rcases m.graph.bodyAt id with _ | value | _ | _
    · exact .quiet trivial not_false
    · by_cases hvalue : value = newValue
      · simp only [hvalue, if_true]
        exact .quiet trivial not_false
      · simp only [hvalue, if_false, notifySubscribers]
        split
        · next hdepth => exact .announces next trivial hdepth
        · next hdepth => exact .kept trivial fun _ => hdepth
    · exact .quiet trivial not_false
    · exact .quiet trivial not_false
  | notify id next =>
    simp only [call, callOp]
    rcases m.graph.bodyAt id with _ | value | _ | _
    · exact .quiet trivial not_false
    · simp only [notifySubscribers]
      split
      · next hdepth => exact .announces next trivial hdepth
      · next hdepth => exact .kept trivial fun _ => hdepth
    · exact .quiet trivial not_false
    · exact .quiet trivial not_false
  | untrack fn next => exact .untracks next
  | batch fn next => exact .batches next
  | signal initial next => exact .quiet trivial not_false
  | computed fn next => exact .quiet trivial not_false
  | domEffect fn next => exact .spawns fn _
  | deferredDomEffect fn next =>
    simp only [call, callOp, NodeGraph.queueDeferredEffect]
    have hcreate : (m.graph.create (.effect fn false)).isHydrating = m.graph.isHydrating ∧
        (m.graph.create (.effect fn false)).deferredEffects = m.graph.deferredEffects :=
      ⟨rfl, rfl⟩
    rw [hcreate.1, hcreate.2]
    rcases m.graph.isHydrating with _ | _ <;> rcases m.graph.deferredEffects with _ | effects
    · exact .spawns fn _
    · exact .spawns fn _
    · exact .spawns fn _
    · exact .quiet trivial not_false
  | dispose id next =>
    simp only [call, callOp]
    rcases m.graph.bodyAt id with _ | _ | _ | _ <;> exact .quiet trivial not_false
  | startHydration next =>
    simp only [call, callOp]
    by_cases h : m.graph.isHydrating = true
    · simp only [h, if_true]
      exact .quiet trivial not_false
    · simp only [h]
      exact .quiet trivial not_false
  | endHydration next => exact .hydrated _
  | pauseHydration next => exact .quiet trivial not_false
  | resumeHydration next => exact .quiet trivial not_false
  | discardDeferredEffects next => exact .quiet trivial not_false
  | host update next => exact .quiet trivial not_false

theorem unwind_stacked (m : Machine V E W) (outcome : Except E V)
    (hcontrol : m.control = .unwind outcome) :
    Stacked m (unwindOp m.graph outcome m.stack) (m.unwind outcome).stack := by
  unfold unwind unwindOp
  rcases hstack : m.stack with _ | ⟨frame, stack⟩
  · have hkept : Stacked m (.idle : Op V E W) m.stack := .quiet trivial not_false
    rw [hstack] at hkept
    simpa [hstack] using hkept
  · cases frame with
    | call next => exact .goesOn hstack
    | compute id prev next => exact .computed outcome hstack
    | run id prev => exact .ran hstack
    | untrack prev => exact .untracked hstack
    | batch =>
      simp only
      split
      · next hdepth => exact .flushes _ hstack hdepth
      · next hdepth => exact .batched hstack hdepth
    | flush queue saved =>
      cases outcome with
      | error e => exact .aborted hstack hcontrol
      | ok value =>
        cases queue with
        | nil =>
          simp only
          by_cases h : m.graph.pendingEffects = []
          · rw [if_pos h, if_pos h]
            exact .flushed hstack h
          · rw [if_neg h, if_neg h]
            exact .drains hstack
        | cons id queue =>
          refine runQueued_stacked m hstack rfl rfl ?_
          intro saved' h
          cases h
          rfl
    | deferred queue =>
      cases queue with
      | nil => exact .undeferred hstack
      | cons id queue => exact runQueued_stacked m hstack rfl rfl (fun _ h => nomatch h)

theorem step_stacked [DecidableEq V] (m : Machine V E W) : Stacked m (op m) m.step.stack := by
  rw [step, op]
  cases hcontrol : m.control with
  | run code => exact call_stacked m code
  | unwind outcome => exact unwind_stacked m outcome hcontrol

/-- A frame that a step leaves. -/
inductive NewFrame (m : Machine V E W) (op : Op V E W) : Frame V E W → Prop where
  | call (next : Except E V → Code V E W) : NewFrame m op (.call next)
  | compute {id : ℕ} (next : Except E V → Code V E W) (h : op = .beginCompute id) :
      NewFrame m op (.compute id m.graph.currentSubscriber next)
  | run {id : ℕ} {fn : Code V E W} (h : op = .beginRun id)
      (hbody : m.graph.bodyAt id = some (.effect fn false)) :
      NewFrame m op (.run id m.graph.currentSubscriber)
  | firstRun {fn : Code V E W} (h : op = .spawn fn) :
      NewFrame m op (.run m.graph.nodes.length m.graph.currentSubscriber)
  | untrack : NewFrame m op (.untrack m.graph.currentSubscriber)
  | batch : NewFrame m op .batch
  | loop {frame : Frame V E W} {queue : List ℕ} (h : loopFrame frame = some queue) :
      NewFrame m op frame

theorem Stacked.mem {m : Machine V E W} {op : Op V E W} {stack : List (Frame V E W)}
    (h : Stacked m op stack) {frame : Frame V E W} (hframe : frame ∈ stack) :
    frame ∈ m.stack ∨ NewFrame m op frame := by
  have hpop : ∀ {top rest}, m.stack = top :: rest → frame ∈ rest →
      frame ∈ m.stack ∨ NewFrame m op frame := by
    intro top rest hstack hrest
    exact Or.inl (hstack ▸ List.mem_cons_of_mem top hrest)
  have hloop : ∀ {top loop rest queue}, m.stack = top :: rest → loopFrame loop = some queue →
      frame ∈ loop :: rest → frame ∈ m.stack ∨ NewFrame m op frame := by
    intro top loop rest queue hstack hqueue hmem
    rcases List.mem_cons.mp hmem with rfl | hrest
    · exact Or.inr (.loop hqueue)
    · exact hpop hstack hrest
  have hpush : ∀ {top next}, NewFrame m op top → frame ∈ top :: .call next :: m.stack →
      frame ∈ m.stack ∨ NewFrame m op frame := by
    intro top next htop hmem
    rcases List.mem_cons.mp hmem with rfl | hmem
    · exact Or.inr htop
    · rcases List.mem_cons.mp hmem with rfl | hmem
      · exact Or.inr (.call next)
      · exact Or.inl hmem
  cases h with
  | kept _ _ => exact Or.inl hframe
  | goesOn h => exact hpop h hframe
  | computes id fn hbody hstate =>
    rcases List.mem_cons.mp hframe with rfl | hmem
    · exact Or.inr (.compute _ rfl)
    · exact Or.inl hmem
  | computed outcome h => exact hpop h hframe
  | spawns fn next => exact hpush (.firstRun rfl) hframe
  | runs hbody h hqueue hqueue' _ =>
    rcases List.mem_cons.mp hframe with rfl | hmem
    · exact Or.inr (.run rfl hbody)
    · exact hloop h hqueue' hmem
  | skips hbody h hqueue hqueue' _ => exact hloop h hqueue' hframe
  | ran h => exact hpop h hframe
  | untracks next => exact hpush .untrack hframe
  | untracked h => exact hpop h hframe
  | batches next => exact hpush .batch hframe
  | batched h _ => exact hpop h hframe
  | flushes saved h _ => exact hloop h rfl hframe
  | announces next _ _ => exact hpush (.loop rfl) hframe
  | drains h => exact hloop h rfl hframe
  | flushed h _ => exact hpop h hframe
  | aborted h _ => exact hpop h hframe
  | hydrated next => exact hpush (.loop rfl) hframe
  | undeferred h => exact hpop h hframe

end RuntimeOps

end Vertz.Proofs
