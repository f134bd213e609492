import Vertz.Proofs.DisposedEffects

/-!
# `Vertz.Proofs.ThrowingComputeds`: reads of computeds that may throw
-/

namespace Vertz.Proofs

open Vertz.Ui.Runtime.Machine
open Vertz.Lib Vertz.Ui.Runtime Vertz.Spec RuntimeGraph RuntimeOps List

namespace ThrowingComputeds

variable {V E W : Type}

/-! ### Pure programs -/

theorem ReadsOnly.pure {code : Code V E W} (h : ReadsOnly code) : PureComputeds code := by
  induction code with
  | done value => trivial
  | throw error => trivial
  | read id next ih => exact fun outcome => ih outcome (h outcome)
  | _ => exact h.elim

def PureFrame : Frame V E W → Prop
  | .call next => ∀ outcome, PureComputeds (next outcome)
  | .compute _ _ next => ∀ outcome, PureComputeds (next outcome)
  | _ => True

/-- The code that runs and waits, and the functions of computeds and
effects. -/
structure Pure (m : Machine V E W) : Prop where
  control : ∀ code, m.control = .run code → PureComputeds code
  frames : ∀ frame ∈ m.stack, PureFrame frame
  computeds : ∀ id fn cached state, m.graph.bodyAt id = some (.computed fn cached state) →
    ReadsOnly fn
  effects : ∀ id fn disposed, m.graph.bodyAt id = some (.effect fn disposed) → PureComputeds fn

/-- The part of `Pure` that is about control and stack. -/
def PureCode (m : Machine V E W) : Prop :=
  (∀ code, m.control = .run code → PureComputeds code) ∧ ∀ frame ∈ m.stack, PureFrame frame

theorem pureCode_run {m : Machine V E W} {code : Code V E W} (hcontrol : m.control = .run code)
    (hcode : PureComputeds code) (hframes : ∀ frame ∈ m.stack, PureFrame frame) : PureCode m := by
  refine ⟨fun code' hcode' => ?_, hframes⟩
  rw [hcontrol] at hcode'
  cases hcode'
  exact hcode

theorem pureCode_unwind {m : Machine V E W} {outcome : Except E V}
    (hcontrol : m.control = .unwind outcome) (hframes : ∀ frame ∈ m.stack, PureFrame frame) :
    PureCode m := by
  refine ⟨fun code hcode => ?_, hframes⟩
  rw [hcontrol] at hcode
  cases hcode

theorem pureFrames_push {stack : List (Frame V E W)} {frame : Frame V E W}
    (hframe : PureFrame frame) (hframes : ∀ frame ∈ stack, PureFrame frame) :
    ∀ frame' ∈ frame :: stack, PureFrame frame' := by
  intro frame' hmem
  rcases mem_cons.mp hmem with rfl | hmem
  · exact hframe
  · exact hframes frame' hmem

variable [Inhabited V]

omit [Inhabited V] in
theorem pureCode_getValue {m : Machine V E W} (h : Pure m) {id : ℕ}
    {next : Except E V → Code V E W} (hnext : ∀ outcome, PureComputeds (next outcome)) :
    PureCode (m.getValue id next) := by
  rw [getValue]
  split
  · exact pureCode_run rfl (hnext _) h.frames
  · next fn cached state hbody =>
      split
      · exact pureCode_run rfl (hnext _) h.frames
      · exact pureCode_run rfl (ReadsOnly.pure (h.computeds id fn cached state hbody))
          (pureFrames_push hnext h.frames)
  · exact ⟨h.control, h.frames⟩

theorem pureCode_notify {m : Machine V E W}
    (hframes : ∀ frame ∈ m.stack, PureFrame frame) {id : ℕ} {next : Except E V → Code V E W}
    (hnext : ∀ outcome, PureComputeds (next outcome)) :
    PureCode (m.notifySubscribers id next) := by
  simp only [notifySubscribers]
  split
  · exact pureCode_unwind rfl (pureFrames_push trivial (pureFrames_push hnext hframes))
  · exact pureCode_run rfl (hnext _) hframes

theorem pureCode_call [DecidableEq V] {m : Machine V E W} (h : Pure m) {code : Code V E W}
    (hcode : PureComputeds code) : PureCode (m.call code) := by
  cases code with
  | done value => exact pureCode_unwind rfl h.frames
  | throw error => exact pureCode_unwind rfl h.frames
  | read id next =>
    simp only [call]
    split
    · exact pureCode_run rfl hcode h.frames
    · exact pureCode_run rfl hcode h.frames
    · exact ⟨h.control, h.frames⟩
  | peek id next => exact pureCode_getValue h hcode
  | write id newValue next =>
    simp only [call]
    split
    · split
      · exact pureCode_run rfl (hcode _) h.frames
      · exact pureCode_notify (m := { m with graph := m.graph.modifyBody id _ }) h.frames hcode
    · exact ⟨h.control, h.frames⟩
  | notify id next =>
    simp only [call]
    split
    · exact pureCode_notify h.frames hcode
    · exact ⟨h.control, h.frames⟩
  | untrack fn next =>
    exact pureCode_run rfl hcode.1 (pureFrames_push trivial (pureFrames_push hcode.2 h.frames))
  | batch fn next =>
    exact pureCode_run rfl hcode.1 (pureFrames_push trivial (pureFrames_push hcode.2 h.frames))
  | signal initial next => exact pureCode_run rfl (hcode _) h.frames
  | computed fn next => exact pureCode_run rfl (hcode.2 _) h.frames
  | domEffect fn next =>
    refine pureCode_run rfl hcode.1 (pureFrames_push trivial (pureFrames_push ?_ h.frames))
    exact fun outcome => hcode.2 _
  | deferredDomEffect fn next =>
    simp only [call]
    split
    · exact pureCode_run rfl (hcode.2 _) h.frames
    · refine pureCode_run rfl hcode.1 (pureFrames_push trivial (pureFrames_push ?_ h.frames))
      exact fun outcome => hcode.2 _
  | dispose id next =>
    simp only [call]
    split
    · exact pureCode_run rfl hcode h.frames
    · exact ⟨h.control, h.frames⟩
  | startHydration next =>
    simp only [call]
    split
    · exact pureCode_run rfl (hcode _) h.frames
    · exact pureCode_run rfl (hcode _) h.frames
  | endHydration next =>
    exact pureCode_unwind rfl
      (pureFrames_push trivial (pureFrames_push (fun _ => hcode) h.frames))
  | pauseHydration next => exact pureCode_run rfl hcode h.frames
  | resumeHydration next => exact pureCode_run rfl hcode h.frames
  | discardDeferredEffects next => exact pureCode_run rfl hcode h.frames
  | host update next => exact pureCode_run rfl (hcode _) h.frames

theorem pureCode_runQueued {m : Machine V E W} (h : Pure m) {id : ℕ} {loop : Frame V E W}
    {stack : List (Frame V E W)} (hloop : PureFrame loop)
    (hframes : ∀ frame ∈ stack, PureFrame frame) : PureCode (m.runQueued id loop stack) := by
  rw [runQueued]
  split
  · next fn hbody =>
      exact pureCode_run rfl (h.effects id fn false hbody)
        (pureFrames_push trivial (pureFrames_push hloop hframes))
  · exact pureCode_unwind rfl (pureFrames_push hloop hframes)

theorem pureCode_unwindStep {m : Machine V E W} (h : Pure m) {outcome : Except E V}
    (hcontrol : m.control = .unwind outcome) : PureCode (m.unwind outcome) := by
  have hframes := h.frames
  unfold unwind
  rcases hstack : m.stack with _ | ⟨frame, stack⟩
  · exact ⟨h.control, h.frames⟩
  · rw [hstack] at hframes
    have htop := hframes frame mem_cons_self
    have hrest : ∀ frame' ∈ stack, PureFrame frame' :=
      fun frame' hmem => hframes frame' (mem_cons_of_mem frame hmem)
    cases frame with
    | call next => exact pureCode_run rfl (htop outcome) hrest
    | compute id prev next => exact pureCode_run rfl (htop outcome) hrest
    | run id prev => exact pureCode_unwind hcontrol hrest
    | untrack prev => exact pureCode_unwind hcontrol hrest
    | batch =>
      simp only
      split
      · exact pureCode_unwind rfl (pureFrames_push trivial hrest)
      · exact pureCode_unwind rfl hrest
    | flush queue saved =>
      cases outcome with
      | error e => exact pureCode_unwind hcontrol hrest
      | ok value =>
        cases queue with
        | nil =>
          simp only
          split
          · exact pureCode_unwind rfl hrest
          · exact pureCode_unwind hcontrol (pureFrames_push trivial hrest)
        | cons id queue => exact pureCode_runQueued h trivial hrest
    | deferred queue =>
      cases queue with
      | nil => exact pureCode_unwind rfl hrest
      | cons id queue => exact pureCode_runQueued h trivial hrest

variable [DecidableEq V]

theorem pure_step {m : Machine V E W} (h : Pure m) : Pure m.step := by
  have hcode : PureCode m.step := by
    rw [step]
    cases hcontrol : m.control with
    | run code => exact pureCode_call h (h.control code hcontrol)
    | unwind outcome => exact pureCode_unwindStep h hcontrol
  refine ⟨hcode.1, hcode.2, ?_, ?_⟩
  · intro id fn cached state hafter
    rw [step_graph] at hafter
    cases hbody : m.graph.bodyAt id with
    | none =>
      obtain ⟨-, hcreated⟩ := created_apply (op m) hbody hafter
      cases hcreated with
      | computed hop =>
        obtain ⟨next, hcontrol⟩ := op_createComputed hop
        exact (h.control _ hcontrol).1
    | some body =>
      obtain ⟨body', hbody', hchange⟩ := bodyAt_apply (op m) hbody
      rw [hafter] at hbody'
      cases hbody'
      cases hchange <;> exact h.computeds id fn _ _ hbody
  · intro id fn disposed hafter
    rw [step_graph] at hafter
    cases hbody : m.graph.bodyAt id with
    | none =>
      obtain ⟨-, hcreated⟩ := created_apply (op m) hbody hafter
      have hcreates : CreatesEffect m fn := by
        cases hcreated with
        | deferred hop => exact op_createsEffect (Or.inr ⟨_, hop⟩)
        | effect hop => exact op_createsEffect (Or.inl hop)
      rcases hcreates with ⟨next, hcontrol⟩ | ⟨next, hcontrol⟩
      · exact (h.control _ hcontrol).1
      · exact (h.control _ hcontrol).1
    | some body =>
      obtain ⟨body', hbody', hchange⟩ := bodyAt_apply (op m) hbody
      rw [hafter] at hbody'
      cases hbody'
      cases hchange <;> exact h.effects id fn _ hbody

theorem pure_run {main : Code V E W} (h : PureComputeds main) (host : W) (n : ℕ) :
    Pure (runOf main host n) := by
  induction n with
  | zero =>
    refine ⟨?_, (fun _ h => nomatch h), (fun _ _ _ _ h => nomatch h), fun _ _ _ h => nomatch h⟩
    intro code hcode
    cases hcode
    exact h
  | succ n ih => exact pure_step ih

/-! ### The graph of outcomes -/

omit [Inhabited V] [DecidableEq V]

theorem outcomeReader_plain : (outcomeReader : Reader ℕ (Except E V) (Code V E W)).Plain where
  silent := fun _ _ h => h
  returns := by
    intro c v h
    cases c <;> first | rfl | cases h

theorem outcomeGraph_functional (g : NodeGraph V (Code V E W)) : (outcomeGraph g).Functional where
  input := by
    rintro s v w ⟨value, hbody, rfl⟩ ⟨value', hbody', rfl⟩
    rw [hbody] at hbody'
    cases hbody'
    rfl
  code := by
    rintro s f f' ⟨cached, state, hbody⟩ ⟨cached', state', hbody'⟩
    rw [hbody] at hbody'
    cases hbody'
    rfl
  apart := by
    rintro s v f ⟨value, hbody, rfl⟩ ⟨cached, state, hbody'⟩
    rw [hbody] at hbody'
    cases hbody'

theorem outcome_unique {g : NodeGraph V (Code V E W)} {fn : Code V E W} {outcome outcome' : Except E V}
    (h : OutcomeOf g fn outcome) (h' : OutcomeOf g fn outcome') : outcome = outcome' :=
  Yields.unique outcomeReader_plain (outcomeGraph_functional g) h h'

/-- The graph changes, and what the kept computeds are subscribed to does
not. -/
theorem keeps_intro {g g' : NodeGraph V (Code V E W)} {kept : ℕ → Prop}
    (hsub : ∀ k s, kept k → k ∈ g.subscribersOf s → k ∈ g'.subscribersOf s)
    (hsignal : ∀ k s value, kept k → k ∈ g.subscribersOf s →
      g.bodyAt s = some (.signal value) → g'.bodyAt s = some (.signal value))
    (hclean : ∀ k s fn cached, kept k → k ∈ g.subscribersOf s →
      g.bodyAt s = some (.computed fn cached .clean) →
      kept s ∧ g'.bodyAt s = some (.computed fn cached .clean)) :
    KeepsGraph (outcomeGraph g) (outcomeGraph g') kept where
  input := by
    rintro s k w hk hs ⟨value, hbody, rfl⟩
    exact ⟨⟨value, hsignal k s value hk hs hbody, rfl⟩, hsub k s hk hs⟩
  fresh := by
    rintro s k f w hk hs ⟨cached, state, hcode⟩ ⟨fn, cached', hbody, hcached⟩
    rw [hcode] at hbody
    cases hbody
    obtain ⟨hkept, hbody'⟩ := hclean k s _ _ hk hs hcode
    exact ⟨hkept, ⟨_, _, hbody'⟩, ⟨_, _, hbody', hcached⟩, hsub k s hk hs⟩

/-- A clean computed was evaluated on the current values, and has cached
what its function returned then. -/
def Cached (g : NodeGraph V (Code V E W)) : Prop :=
  ∀ id fn cached, g.bodyAt id = some (.computed fn cached .clean) →
    ∃ outcome, Traced outcomeReader (outcomeGraph g) id fn outcome ∧
      ∀ value, outcome = .ok value → cached = value

theorem Cached.keep {g g' : NodeGraph V (Code V E W)} {kept : ℕ → Prop} (h : Cached g)
    (hkeep : KeepsGraph (outcomeGraph g) (outcomeGraph g') kept)
    (hclean : ∀ id fn cached, g'.bodyAt id = some (.computed fn cached .clean) →
      kept id ∧ g.bodyAt id = some (.computed fn cached .clean)) : Cached g' := by
  intro id fn cached hbody
  obtain ⟨hkept, hbefore⟩ := hclean id fn cached hbody
  obtain ⟨outcome, htraced, hcached⟩ := h id fn cached hbefore
  exact ⟨outcome, htraced.keep hkeep hkept, hcached⟩

/-- A clean computed answers with its current outcome, unless that is an
error. -/
theorem Cached.outcome {g : NodeGraph V (Code V E W)} (h : Cached g) {id : ℕ} {fn : Code V E W}
    {cached : V} (hbody : g.bodyAt id = some (.computed fn cached .clean))
    (hnothrow : ∀ error, ¬ OutcomeOf g fn (.error error)) :
    Traced outcomeReader (outcomeGraph g) id fn (.ok cached) := by
  obtain ⟨outcome, htraced, hcached⟩ := h id fn cached hbody
  cases outcome with
  | error error => exact absurd htraced.yields (hnothrow error)
  | ok value =>
    rw [hcached value rfl]
    exact htraced

/-! ### Steps outside of evaluations -/

/-- The computed, whatever its state. -/
def IsComputed (g : NodeGraph V (Code V E W)) (id : ℕ) : Prop :=
  ∃ fn cached state, g.bodyAt id = some (.computed fn cached state)

section Step

variable [Inhabited V] [DecidableEq V] {m : Machine V E W}

theorem cleared_computed {id : ℕ} (h : IsComputed m.graph id)
    (hcleared : (op m).cleared m.graph = some id) : op m = .beginCompute id := by
  obtain ⟨fn, cached, state, hbody⟩ := h
  have hstacked := step_stacked m
  generalize m.step.stack = stack at hstacked
  cases hop : op m with
  | beginCompute j =>
    rw [hop] at hcleared
    cases hcleared
    rfl
  | spawn fn' =>
    rw [hop] at hcleared
    cases hcleared
    exact absurd (lt_length _ _ hbody) (Nat.lt_irrefl _)
  | beginRun j =>
    rw [hop] at hcleared hstacked
    cases hcleared
    cases hstacked with
    | runs hlive _ _ _ _ =>
      rw [hbody] at hlive
      cases hlive
    | kept hpassing _ => cases hpassing
    | announces _ hannounces _ => cases hannounces
  | dispose j =>
    rw [hop] at hcleared
    cases hcleared
    obtain ⟨next, hcontrol⟩ := op_dispose hop
    simp only [op, hcontrol, callOp, hbody] at hop
    cases hop
  | _ =>
    rw [hop] at hcleared
    cases hcleared

/-- The operations that evaluate nothing and announce nothing. -/
structure Quiet (o : Op V E W) : Prop where
  begins : ∀ id, o ≠ .beginCompute id
  ends : ∀ id prev outcome, o ≠ .endCompute id prev outcome
  announces : ¬ o.Announcing

omit [Inhabited V] [DecidableEq V] in
theorem Quiet.not_announced {o : Op V E W} (h : Quiet o) {source : ℕ} :
    ¬ (o = .notify source ∨ ∃ new, o = .write source new) := by
  rintro (rfl | ⟨new, rfl⟩)
  · exact h.announces trivial
  · exact h.announces trivial

omit [DecidableEq V] in
theorem quiet_body {o : Op V E W} (hquiet : Quiet o) {g : NodeGraph V (Code V E W)} {id : ℕ}
    {body : Body V (Code V E W)} (hbody : g.bodyAt id = some body)
    (heffect : ∀ fn disposed, body ≠ .effect fn disposed) : (o.apply g).bodyAt id = some body := by
  obtain ⟨body', hbody', hchange⟩ := bodyAt_apply o hbody
  cases hchange with
  | same => exact hbody'
  | value hop => exact absurd (Or.inr ⟨_, hop⟩) hquiet.not_announced
  | marked hop =>
    obtain ⟨source, hsource⟩ := hop
    exact absurd hsource hquiet.not_announced
  | began hop => exact absurd hop (hquiet.begins _)
  | returned hop => exact absurd hop (hquiet.ends _ _ _)
  | threw hop => exact absurd hop (hquiet.ends _ _ _)
  | disposed _ => exact absurd rfl (heffect _ _)

theorem keeps_quiet (hquiet : Quiet (op m)) :
    KeepsGraph (outcomeGraph m.graph) (outcomeGraph m.step.graph) (IsComputed m.graph) := by
  rw [step_graph]
  apply keeps_intro
  · intro k s hk hs
    rw [mem_subscribersOf_apply]
    refine Or.inl ⟨hs, fun hcleared => ?_⟩
    exact hquiet.begins k (cleared_computed hk hcleared.1)
  · intro k s value _ _ hbody
    exact quiet_body hquiet hbody nofun
  · intro k s fn cached _ _ hbody
    exact ⟨⟨fn, cached, .clean, hbody⟩, quiet_body hquiet hbody nofun⟩

theorem cached_quiet (hquiet : Quiet (op m)) (h : Cached m.graph) : Cached m.step.graph := by
  refine h.keep (keeps_quiet hquiet) ?_
  intro id fn cached hafter
  rw [step_graph] at hafter
  cases hbody : m.graph.bodyAt id with
  | none =>
    obtain ⟨-, hcreated⟩ := created_apply (op m) hbody hafter
    cases hcreated
  | some body =>
    obtain ⟨body', hbody', hchange⟩ := bodyAt_apply (op m) hbody
    rw [hafter] at hbody'
    cases hbody'
    cases hchange with
    | same => exact ⟨⟨fn, cached, .clean, hbody⟩, rfl⟩
    | returned hop => exact absurd hop (hquiet.ends _ _ _)
    | threw hop => exact absurd hop (hquiet.ends _ _ _)

end Step

/-- A computed that is clean after a change of an object was clean before,
and has heard of nothing: neither that object nor one that became dirty is
among its sources. -/
theorem cached_announced {g g₀ g' : NodeGraph V (Code V E W)} {source : ℕ}
    (hsubs : ∀ s, g₀.subscribersOf s = g.subscribersOf s)
    (hbodies : ∀ s, g₀.bodyAt s = g.bodyAt s ∨
      s = source ∧ ∃ old new, g.bodyAt s = some (.signal old) ∧ g₀.bodyAt s = some (.signal new))
    (h : Announced source g₀ g') (hcached : Cached g) : Cached g' := by
  have hnotTold : ∀ k fn cached, g'.bodyAt k = some (.computed fn cached .clean) →
      ¬ RuntimeGraph.Told g' k := by
    intro k fn cached hbody htold
    rw [RuntimeGraph.Told, hbody] at htold
    cases htold
  have hclean : ∀ k fn cached, g'.bodyAt k = some (.computed fn cached .clean) →
      g.bodyAt k = some (.computed fn cached .clean) := by
    intro k fn cached hbody
    rcases h.body k with hsame | ⟨_, _, _, _, hdirty⟩
    · rw [hbody] at hsame
      rcases hbodies k with hbefore | ⟨_, old, new, _, hsignal⟩
      · exact hbefore ▸ hsame.symm
      · rw [hsignal] at hsame
        cases hsame
    · rw [hbody] at hdirty
      cases hdirty
  have hkeep : KeepsGraph (outcomeGraph g) (outcomeGraph g')
      fun k => ∃ fn cached, g'.bodyAt k = some (.computed fn cached .clean) := by
    apply keeps_intro
    · intro k s _ hs
      rw [h.subscribers, hsubs]
      exact hs
    · rintro k s value ⟨fn, cached, hk⟩ hs hbody
      have hsource : s ≠ source := by
        rintro rfl
        exact hnotTold k fn cached hk (h.told k (hsubs s ▸ hs))
      have hbody₀ : g₀.bodyAt s = some (.signal value) := by
        rcases hbodies s with hsame | ⟨heq, _⟩
        · exact hsame.trans hbody
        · exact absurd heq hsource
      rcases h.body s with hsame | ⟨_, _, _, hbefore, _⟩
      · exact hsame.trans hbody₀
      · rw [hbody₀] at hbefore
        cases hbefore
    · rintro k s fn cached ⟨fnk, cachedk, hk⟩ hs hbody
      have hbody₀ : g₀.bodyAt s = some (.computed fn cached .clean) := by
        rcases hbodies s with hsame | ⟨_, _, _, hsignal, _⟩
        · exact hsame.trans hbody
        · rw [hbody] at hsignal
          cases hsignal
      rcases h.body s with hsame | ⟨_, _, _, hbefore, hdirty⟩
      · exact ⟨⟨fn, cached, hsame.trans hbody₀⟩, hsame.trans hbody₀⟩
      · rw [hbody₀] at hbefore
        cases hbefore
        have htold := h.passedOn s fn cached .clean hbody₀ (by intro h; cases h) hdirty k (hsubs s ▸ hs)
        exact absurd htold (hnotTold k fnk cachedk hk)
  refine hcached.keep hkeep ?_
  intro k fn cached hk
  exact ⟨⟨fn, cached, hk⟩, hclean k fn cached hk⟩

theorem cached_notify {g : NodeGraph V (Code V E W)} (h : Cached g) (source : ℕ) :
    Cached (g.notifySubscribers source) :=
  cached_announced (fun _ => rfl) (fun _ => Or.inl rfl) (notifySubscribers_announced g source) h

theorem cached_write {g : NodeGraph V (Code V E W)} (h : Cached g) (source : ℕ) (new : V) :
    Cached ((g.modifyBody source (.setValue new)).notifySubscribers source) := by
  refine cached_announced (subscribersOf_modifyBody g source _) ?_
    (notifySubscribers_announced _ source) h
  intro s
  rw [bodyAt_modifyBody]
  by_cases hs : s = source
  · rw [if_pos hs]
    rcases hbody : g.bodyAt s with _ | old | _ | _
    · exact Or.inl rfl
    · exact Or.inr ⟨hs, old, new, rfl, rfl⟩
    · exact Or.inl rfl
    · exact Or.inl rfl
  · rw [if_neg hs]
    exact Or.inl rfl

/-! ### Evaluations -/

/-- The computeds that are being evaluated, the innermost first, each with
what is left of its function, and the frames that they leave. One that
waits for another is to go on with the value of that one. -/
inductive Evaluation : List (Frame V E W) → List (ℕ × Code V E W) → Prop where
  | base {stack : List (Frame V E W)} (h : ∀ id prev next, Frame.compute id prev next ∉ stack) :
      Evaluation stack []
  | nested {id : ℕ} {prev : Option ℕ} {next : Except E V → Code V E W}
      {stack : List (Frame V E W)} {positions : List (ℕ × Code V E W)} (code : Code V E W)
      (h : Evaluation stack positions)
      (hwaits : ∀ j c, positions.head? = some (j, c) → c = .read id next ∧ prev = some j) :
      Evaluation (.compute id prev next :: stack) ((id, code) :: positions)

theorem Evaluation.no_frames {stack : List (Frame V E W)} (h : Evaluation stack []) (id : ℕ)
    (prev : Option ℕ) (next : Except E V → Code V E W) : Frame.compute id prev next ∉ stack := by
  generalize hpositions : ([] : List (ℕ × Code V E W)) = positions at h
  cases h with
  | base hnone => exact hnone id prev next
  | nested _ _ _ => cases hpositions

theorem Evaluation.top_frame {stack : List (Frame V E W)} {id : ℕ} {code : Code V E W}
    {rest : List (ℕ × Code V E W)} (h : Evaluation stack ((id, code) :: rest)) :
    ∃ prev next stack', stack = .compute id prev next :: stack' ∧ Evaluation stack' rest ∧
      ∀ j c, rest.head? = some (j, c) → c = .read id next ∧ prev = some j := by
  generalize hpositions : (id, code) :: rest = positions at h
  cases h with
  | base _ => cases hpositions
  | nested _ hrest hwaits =>
    cases hpositions
    exact ⟨_, _, _, rfl, hrest, hwaits⟩

theorem Evaluation.recode {stack : List (Frame V E W)} {id : ℕ} {code : Code V E W}
    {rest : List (ℕ × Code V E W)} (h : Evaluation stack ((id, code) :: rest))
    (code' : Code V E W) : Evaluation stack ((id, code') :: rest) := by
  obtain ⟨prev, next, stack', rfl, hrest, hwaits⟩ := h.top_frame
  exact .nested code' hrest hwaits

/-- An evaluation has got where its function gets on the current values.
One that is not begun anew among those `above` it is subscribed to what
it has read, and to the one it waits for. -/
def Sound (g : NodeGraph V (Code V E W)) : List ℕ → List (ℕ × Code V E W) → Prop
  | _, [] => True
  | above, (k, c) :: rest =>
    (∃ fn cached, g.bodyAt k = some (.computed fn cached .computing) ∧
      Reaches outcomeReader (outcomeGraph g) fn c ∧ ReadsOnly c ∧
      (k ∉ above → Ran outcomeReader (outcomeGraph g) k fn c ∧
        ∀ id, above.head? = some id → k ∈ g.subscribersOf id)) ∧
    Sound g (k :: above) rest

/-- The code that runs is that of the innermost evaluation. -/
def AtTop (m : Machine V E W) : List (ℕ × Code V E W) → Prop
  | [] => True
  | (j, c) :: _ =>
    m.graph.currentSubscriber = some j ∧
      (m.control = .run c ∨
        (∃ id next, c = .read id next ∧ m.control = .run (.peek id next) ∧
          j ∈ m.graph.subscribersOf id) ∨
        ∃ outcome, outcomeReader.returns c = some outcome ∧ m.control = .unwind outcome)

/-- What holds in every state of a run. -/
structure Evaluating (m : Machine V E W) (positions : List (ℕ × Code V E W)) : Prop where
  stack : Evaluation m.stack positions
  sound : Sound m.graph [] positions
  top : AtTop m positions
  cached : Cached m.graph

/-- The signals keep their values and the computeds their functions. -/
structure SameMeaning (g g' : NodeGraph V (Code V E W)) : Prop where
  signal : ∀ {s value}, g.bodyAt s = some (.signal value) → g'.bodyAt s = some (.signal value)
  computed : ∀ {s fn cached state}, g.bodyAt s = some (.computed fn cached state) →
    ∃ cached' state', g'.bodyAt s = some (.computed fn cached' state')

theorem SameMeaning.reaches {g g' : NodeGraph V (Code V E W)} (h : SameMeaning g g')
    {c c' : Code V E W} (hreach : Reaches outcomeReader (outcomeGraph g) c c') :
    Reaches outcomeReader (outcomeGraph g') c c' := by
  apply hreach.mono
  · rintro s w ⟨value, hbody, rfl⟩
    exact ⟨value, h.signal hbody, rfl⟩
  · rintro s f ⟨cached, state, hbody⟩
    exact h.computed hbody

theorem Sound.computing {g : NodeGraph V (Code V E W)} {positions : List (ℕ × Code V E W)} :
    ∀ {above : List ℕ}, Sound g above positions → ∀ p ∈ positions,
      ∃ fn cached, g.bodyAt p.1 = some (.computed fn cached .computing) := by
  induction positions with
  | nil => exact fun _ _ h => nomatch h
  | cons position rest ih =>
    intro above ⟨⟨fn, cached, hbody, _⟩, hrest⟩ p hp
    rcases mem_cons.mp hp with rfl | hp
    · exact ⟨fn, cached, hbody⟩
    · exact ih hrest p hp

/-- Every evaluation keeps its ground when the graph keeps what it has
read. The list above it may end differently. -/
theorem Sound.keep {g g' : NodeGraph V (Code V E W)} {kept : ℕ → Prop} {tail tail' : List ℕ}
    (hmeaning : SameMeaning g g') (hkeep : KeepsGraph (outcomeGraph g) (outcomeGraph g') kept)
    (hsubs : ∀ k s, kept k → k ∈ g.subscribersOf s → k ∈ g'.subscribersOf s) :
    ∀ {positions : List (ℕ × Code V E W)} {above : List ℕ},
      (∀ p ∈ positions, ∀ fn cached, g.bodyAt p.1 = some (.computed fn cached .computing) →
        g'.bodyAt p.1 = some (.computed fn cached .computing)) →
      (∀ p ∈ positions, p.1 ∉ tail' → p.1 ∉ tail ∧ kept p.1) →
      (∀ p, positions.head? = some p → above = [] → p.1 ∉ tail' →
        ∀ id, tail'.head? = some id → p.1 ∈ g'.subscribersOf id) →
      Sound g (above ++ tail) positions → Sound g' (above ++ tail') positions := by
  intro positions
  induction positions with
  | nil => exact fun _ _ _ _ => trivial
  | cons position rest ih =>
    obtain ⟨k, c⟩ := position
    intro above hbody hnew hfirst h
    obtain ⟨⟨fn, cached, hcomputing, hreach, hreads, hran⟩, hrest⟩ := h
    have hcomputing' := hbody (k, c) mem_cons_self fn cached hcomputing
    refine ⟨⟨fn, cached, hcomputing', hmeaning.reaches hreach, hreads, ?_⟩, ?_⟩
    · intro hk
      rw [mem_append, not_or] at hk
      obtain ⟨hold, hkept⟩ := hnew (k, c) mem_cons_self hk.2
      have habove : k ∉ above ++ tail := by
        rw [mem_append, not_or]
        exact ⟨hk.1, hold⟩
      obtain ⟨hran, hwaits⟩ := hran habove
      refine ⟨hran.keep hkeep hkept, ?_⟩
      intro id hid
      cases above with
      | nil => exact hfirst (k, c) rfl rfl hk.2 id hid
      | cons a above => exact hsubs k id hkept (hwaits id hid)
    · refine @ih (k :: above) ?_ ?_ ?_ hrest
      · exact fun p hp => hbody p (mem_cons_of_mem _ hp)
      · exact fun p hp => hnew p (mem_cons_of_mem _ hp)
      · intro p _ habove
        cases habove

theorem sameMeaning_apply [Inhabited V] (g : NodeGraph V (Code V E W)) (o : Op V E W)
    (hwrite : ∀ id new, o ≠ .write id new) : SameMeaning g (o.apply g) where
  signal := by
    intro s value hbody
    obtain ⟨body, hbody', hchange⟩ := bodyAt_apply o hbody
    cases hchange with
    | same => exact hbody'
    | value hop => exact absurd hop (hwrite _ _)
  computed := by
    intro s fn cached state hbody
    obtain ⟨body, hbody', hchange⟩ := bodyAt_apply o hbody
    cases hchange <;> exact ⟨_, _, hbody'⟩

section

variable {g : NodeGraph V (Code V E W)} {id : ℕ} {fn : Code V E W} {cached : V}

theorem keeps_beginCompute {state : ComputedState}
    (hid : g.bodyAt id = some (.computed fn cached state)) (hstate : state ≠ .clean) :
    KeepsGraph (outcomeGraph g) (outcomeGraph (g.beginCompute id)) (· ≠ id) := by
  have hother : ∀ s body, g.bodyAt s = some body → s ≠ id →
      (g.beginCompute id).bodyAt s = some body := by
    intro s body hbody hs
    rw [bodyAt_beginCompute, if_neg hs, hbody]
  apply keeps_intro
  · intro k s hk hs
    rw [mem_subscribersOf_beginCompute]
    exact ⟨hs, fun h => hk h.1⟩
  · intro k s value _ _ hbody
    refine hother s _ hbody ?_
    rintro rfl
    rw [hid] at hbody
    cases hbody
  · intro k s fn' cached' _ _ hbody
    have hs : s ≠ id := by
      rintro rfl
      rw [hid] at hbody
      cases hbody
      exact hstate rfl
    exact ⟨hs, hother s _ hbody hs⟩

theorem cached_beginCompute {state : ComputedState} (h : Cached g)
    (hid : g.bodyAt id = some (.computed fn cached state)) (hstate : state ≠ .clean) :
    Cached (g.beginCompute id) := by
  refine h.keep (keeps_beginCompute hid hstate) ?_
  intro k fn' cached' hbody
  rw [bodyAt_beginCompute] at hbody
  by_cases hk : k = id
  · rw [if_pos hk, hk, hid] at hbody
    cases hbody
  · rw [if_neg hk] at hbody
    exact ⟨hk, hbody⟩

/-- The end of an evaluation concerns nobody who has read already. -/
theorem keeps_endCompute (hid : g.bodyAt id = some (.computed fn cached .computing))
    (prev : Option ℕ) (outcome : Except E V) :
    KeepsGraph (outcomeGraph g) (outcomeGraph (g.endCompute id prev outcome)) (fun _ => True) := by
  have hother : ∀ s body, g.bodyAt s = some body →
      body ≠ .computed fn cached .computing →
      (g.endCompute id prev outcome).bodyAt s = some body := by
    intro s body hbody hne
    have hs : s ≠ id := by
      rintro rfl
      rw [hid] at hbody
      cases hbody
      exact hne rfl
    rw [bodyAt_endCompute, if_neg hs, hbody]
  apply keeps_intro
  · intro k s _ hs
    rw [subscribersOf_endCompute]
    exact hs
  · intro k s value _ _ hbody
    exact hother s _ hbody nofun
  · intro k s fn' cached' _ _ hbody
    exact ⟨trivial, hother s _ hbody nofun⟩

theorem ended_body {state : ComputedState} (hid : g.bodyAt id = some (.computed fn cached state))
    (prev : Option ℕ) (outcome : Except E V) :
    ∃ new, (g.endCompute id prev outcome).bodyAt id = some (.computed fn new .clean) ∧
      ∀ value, outcome = .ok value → new = value := by
  have hbody := bodyAt_endCompute g id prev outcome id
  rw [if_pos rfl, hid] at hbody
  cases outcome with
  | ok value => exact ⟨value, hbody, fun _ h => by cases h; rfl⟩
  | error error => exact ⟨cached, hbody, fun _ h => nomatch h⟩

theorem cached_endCompute (h : Cached g) (hid : g.bodyAt id = some (.computed fn cached .computing))
    (prev : Option ℕ) {outcome : Except E V}
    (htraced : Traced outcomeReader (outcomeGraph g) id fn outcome) :
    Cached (g.endCompute id prev outcome) := by
  have hkeep := keeps_endCompute hid prev outcome
  intro k fn' cached' hbody
  by_cases hk : k = id
  · subst hk
    obtain ⟨new, hnew, hvalue⟩ := ended_body hid prev outcome
    rw [hnew] at hbody
    cases hbody
    exact ⟨outcome, htraced.keep hkeep trivial, hvalue⟩
  · rw [bodyAt_endCompute, if_neg hk] at hbody
    obtain ⟨outcome', htraced', hcached⟩ := h k fn' cached' hbody
    exact ⟨outcome', htraced'.keep hkeep trivial, hcached⟩

end

/-! ### One step of an evaluation -/

section Step

variable [Inhabited V] [DecidableEq V] {m : Machine V E W} {positions : List (ℕ × Code V E W)}

theorem step_computes {id : ℕ} {next : Except E V → Code V E W} {fn : Code V E W} {cached : V}
    {state : ComputedState} (hcontrol : m.control = .run (.peek id next))
    (hbody : m.graph.bodyAt id = some (.computed fn cached state)) (hstate : state ≠ .clean) :
    m.step = { m with
      graph := m.graph.beginCompute id
      control := .run fn
      stack := .compute id m.graph.currentSubscriber next :: m.stack } := by
  simp only [step, hcontrol, call, getValue, hbody, hstate, if_false,
    enter, singleton_append]

theorem base_step (hpure : Pure m) (h : Evaluating m []) : ∃ positions, Evaluating m.step positions := by
  obtain ⟨hstack, _, _, hcached⟩ := h
  have hnone := hstack.no_frames
  by_cases hbegins : ∃ id, op m = .beginCompute id
  · obtain ⟨id, hop⟩ := hbegins
    obtain ⟨next, fn, cached, state, hcontrol, hbody, hstate⟩ := op_beginCompute hop
    have hstep := step_computes hcontrol hbody hstate
    refine ⟨[(id, fn)], ?_, ?_, ?_, ?_⟩
    · rw [hstep]
      exact .nested fn (.base hnone) (fun _ _ h => nomatch h)
    · rw [hstep]
      refine ⟨⟨fn, cached, ?_, .here fn, hpure.computeds id fn cached state hbody, ?_⟩, trivial⟩
      · rw [bodyAt_beginCompute, if_pos rfl, hbody]
        rfl
      · exact fun _ => ⟨.start, fun _ h => nomatch h⟩
    · rw [hstep]
      exact ⟨rfl, Or.inl rfl⟩
    · rw [hstep]
      exact cached_beginCompute hcached hbody hstate
  · have hnotEnds : ∀ id prev outcome, op m ≠ .endCompute id prev outcome := by
      intro id prev outcome hop
      have hstacked := step_stacked m
      rw [hop] at hstacked
      generalize m.step.stack = stack at hstacked
      cases hstacked with
      | computed _ hstack' => exact hnone _ _ _ (hstack' ▸ mem_cons_self)
      | kept hpassing _ => cases hpassing
      | announces _ hannounces _ => cases hannounces
    refine ⟨[], .base ?_, trivial, trivial, ?_⟩
    · intro id prev next hmem
      rcases (step_stacked m).mem hmem with hold | hnew
      · exact hnone id prev next hold
      · cases hnew with
        | compute _ hop => exact hbegins ⟨id, hop⟩
        | loop hqueue => cases hqueue
    · by_cases hannounces : (op m).Announcing
      · rw [step_graph]
        cases hop : op m with
        | write source new => exact cached_write hcached source new
        | notify source => exact cached_notify hcached source
        | _ =>
          rw [hop] at hannounces
          cases hannounces
      · exact cached_quiet ⟨fun id hop => hbegins ⟨id, hop⟩, hnotEnds, hannounces⟩ hcached

omit [Inhabited V] [DecidableEq V] in
/-- The innermost evaluation has been answered what it asked for. -/
theorem sound_answered {g : NodeGraph V (Code V E W)} {j id : ℕ} {next : Except E V → Code V E W}
    {rest : List (ℕ × Code V E W)} {outcome : Except E V}
    (h : Sound g [] ((j, .read id next) :: rest)) (hsub : j ∈ g.subscribersOf id)
    (hanswer : (outcomeGraph g).input id outcome ∨
      ∃ fn, (outcomeGraph g).code id fn ∧ (outcomeGraph g).fresh id outcome ∧
        Traced outcomeReader (outcomeGraph g) id fn outcome) :
    Sound g [] ((j, next outcome) :: rest) := by
  obtain ⟨⟨fn, cached, hbody, hreach, hreads, hran⟩, hrest⟩ := h
  have hstep : Reaches outcomeReader (outcomeGraph g) (.read id next) (next outcome) := by
    rcases hanswer with hinput | ⟨fn', hcode, _, htraced⟩
    · exact .input rfl hinput (.here _)
    · exact .derived rfl hcode htraced.yields (.here _)
  refine ⟨⟨fn, cached, hbody, hreach.trans hstep, hreads outcome, fun hj => ⟨?_, ?_⟩⟩, hrest⟩
  · rcases hanswer with hinput | ⟨fn', hcode, hfresh, htraced⟩
    · exact .input (hran hj).1 rfl hsub hinput
    · exact .fresh (hran hj).1 rfl hsub hcode hfresh htraced
  · exact fun _ h => nomatch h

theorem peek_step (hpure : Pure m) (hfinds : FindsNoThrow m) {j id : ℕ}
    {next : Except E V → Code V E W} {rest : List (ℕ × Code V E W)}
    (h : Evaluating m ((j, .read id next) :: rest)) (hcurrent : m.graph.currentSubscriber = some j)
    (hcontrol : m.control = .run (.peek id next)) (hsub : j ∈ m.graph.subscribersOf id) :
    ∃ positions, Evaluating m.step positions := by
  obtain ⟨hstack, hsound, htop, hcached⟩ := h
  cases hbody : m.graph.bodyAt id with
  | none =>
    have hstep : m.step = m := by
      simp only [step, hcontrol, call, getValue, hbody]
    refine ⟨(j, .read id next) :: rest, ?_⟩
    rw [hstep]
    exact ⟨hstack, hsound, htop, hcached⟩
  | some body =>
    cases body with
    | effect fn disposed =>
      have hstep : m.step = m := by
        simp only [step, hcontrol, call, getValue, hbody]
      refine ⟨(j, .read id next) :: rest, ?_⟩
      rw [hstep]
      exact ⟨hstack, hsound, htop, hcached⟩
    | signal value =>
      have hstep : m.step = { m with control := .run (next (.ok value)) } := by
        simp only [step, hcontrol, call, getValue, hbody, goOn]
      refine ⟨(j, next (.ok value)) :: rest, ?_⟩
      rw [hstep]
      exact ⟨hstack.recode _, sound_answered hsound hsub (Or.inl ⟨value, hbody, rfl⟩),
        ⟨hcurrent, Or.inl rfl⟩, hcached⟩
    | computed fn cached state =>
      by_cases hstate : state = .clean
      · subst hstate
        have hstep : m.step = { m with control := .run (next (.ok cached)) } := by
          simp only [step, hcontrol, call, getValue, hbody, if_true,
            goOn]
        have htraced := hcached.outcome hbody fun error =>
          hfinds id next fn cached error hcontrol hbody
        refine ⟨(j, next (.ok cached)) :: rest, ?_⟩
        rw [hstep]
        refine ⟨hstack.recode _, sound_answered hsound hsub (Or.inr ⟨fn, ?_, ?_, htraced⟩),
          ⟨hcurrent, Or.inl rfl⟩, hcached⟩
        · exact ⟨cached, .clean, hbody⟩
        · exact ⟨fn, cached, hbody, fun value h => by cases h; rfl⟩
      · have hstep := step_computes hcontrol hbody hstate
        refine ⟨(id, fn) :: (j, .read id next) :: rest, ?_⟩
        rw [hstep]
        refine ⟨?_, ⟨?_, ?_⟩, ⟨rfl, Or.inl rfl⟩, cached_beginCompute hcached hbody hstate⟩
        · refine .nested fn hstack ?_
          intro j' c hhead
          cases hhead
          exact ⟨rfl, hcurrent⟩
        · refine ⟨fn, cached, ?_, .here fn, hpure.computeds id fn cached state hbody, ?_⟩
          · rw [bodyAt_beginCompute, if_pos rfl, hbody]
            rfl
          · exact fun _ => ⟨.start, by intro _ h; cases h⟩
        · have hmeaning : SameMeaning m.graph (m.graph.beginCompute id) :=
            sameMeaning_apply m.graph (.beginCompute id) (by intro _ _ h; cases h)
          have hsubs : ∀ k s, k ≠ id → k ∈ m.graph.subscribersOf s →
              k ∈ (m.graph.beginCompute id).subscribersOf s := by
            intro k s hk hs
            rw [mem_subscribersOf_beginCompute]
            exact ⟨hs, fun h => hk h.1⟩
          refine @Sound.keep _ _ _ _ _ _ [] [id] hmeaning (keeps_beginCompute hbody hstate)
            hsubs _ [] ?_ ?_ ?_ hsound
          · intro p _ fn' cached' hp
            rw [bodyAt_beginCompute]
            split
            · rw [hp]
              rfl
            · exact hp
          · intro p _ hp
            exact ⟨not_mem_nil, fun heq => hp (heq ▸ mem_singleton_self id)⟩
          · intro p hhead _ hp s hs
            cases hhead
            cases hs
            rw [mem_subscribersOf_beginCompute]
            exact ⟨hsub, fun h => hp (h.1 ▸ mem_singleton_self id)⟩

omit [Inhabited V] [DecidableEq V] in
/-- A computed that waits needs the one it waits for, directly or through
others. -/
theorem needs_chain {g : NodeGraph V (Code V E W)} {rest : List (ℕ × Code V E W)} :
    ∀ {id : ℕ} {code : Code V E W} {stack : List (Frame V E W)} {above : List ℕ},
      Evaluation stack ((id, code) :: rest) → Sound g above ((id, code) :: rest) →
      ∀ p ∈ rest, Relation.TransGen (fun s k => Needs outcomeReader (outcomeGraph g) k s) id p.1 := by
  induction rest with
  | nil => exact fun _ _ _ h => nomatch h
  | cons position rest ih =>
    obtain ⟨k, c⟩ := position
    intro id code stack above hstack hsound p hp
    obtain ⟨prev, next, stack', -, hrest, hwaits⟩ := hstack.top_frame
    obtain ⟨rfl, -⟩ := hwaits k c rfl
    obtain ⟨⟨fn, cached, hbody, hreach, _⟩, _⟩ := hsound.2
    have hneeds : Needs outcomeReader (outcomeGraph g) k id :=
      ⟨fn, .read id next, next, ⟨cached, .computing, hbody⟩, hreach, rfl⟩
    rcases mem_cons.mp hp with rfl | hp
    · exact .single hneeds
    · exact .head hneeds (ih hrest hsound.2 p hp)

omit [Inhabited V] [DecidableEq V] in
/-- A computed whose evaluation ends was not begun anew within itself. -/
theorem not_reentered {g : NodeGraph V (Code V E W)} {stack : List (Frame V E W)} {id : ℕ}
    {code : Code V E W} {rest : List (ℕ × Code V E W)} {outcome : Except E V}
    (hstack : Evaluation stack ((id, code) :: rest)) (hsound : Sound g [] ((id, code) :: rest))
    (hreturns : outcomeReader.returns code = some outcome) : ∀ p ∈ rest, p.1 ≠ id := by
  intro p hp heq
  have hcycle := needs_chain hstack hsound p hp
  obtain ⟨⟨fn, cached, hbody, hreach, _⟩, _⟩ := hsound
  rw [heq] at hcycle
  have hcode : (outcomeGraph g).code id fn := ⟨cached, .computing, hbody⟩
  exact not_needs_self outcomeReader_plain (outcomeGraph_functional g) hcode
    (hreach.yields (.returns hreturns)) hcycle

theorem end_step {j : ℕ} {c : Code V E W} {rest : List (ℕ × Code V E W)} {outcome : Except E V}
    (h : Evaluating m ((j, c) :: rest)) (hreturns : outcomeReader.returns c = some outcome)
    (hcontrol : m.control = .unwind outcome) : ∃ positions, Evaluating m.step positions := by
  obtain ⟨hstack, hsound, htop, hcached⟩ := h
  have hfresh := not_reentered hstack hsound hreturns
  obtain ⟨prev, next, stack', htopFrame, hrest, hwaits⟩ := hstack.top_frame
  obtain ⟨⟨fn, cached, hbody, -, -, hran⟩, hsoundRest⟩ := hsound
  have htraced : Traced outcomeReader (outcomeGraph m.graph) j fn outcome :=
    (hran not_mem_nil).1.traced hreturns
  have hstep : m.step = { m with
      graph := m.graph.endCompute j prev outcome
      control := .run (next outcome)
      stack := stack' } := by
    simp only [step, hcontrol, unwind, htopFrame]
  have hcached' := cached_endCompute hcached hbody prev htraced
  have hkeep := keeps_endCompute hbody prev outcome
  cases rest with
  | nil =>
    refine ⟨[], ?_⟩
    rw [hstep]
    exact ⟨hrest, trivial, trivial, hcached'⟩
  | cons position rest =>
    obtain ⟨i, ci⟩ := position
    obtain ⟨rfl, rfl⟩ := hwaits i ci rfl
    refine ⟨(i, next outcome) :: rest, ?_⟩
    rw [hstep]
    have hmeaning : SameMeaning m.graph (m.graph.endCompute j (some i) outcome) :=
      sameMeaning_apply m.graph (.endCompute j (some i) outcome) (by intro _ _ h; cases h)
    have hsound' : Sound (m.graph.endCompute j (some i) outcome) [] ((i, .read j next) :: rest) := by
      refine @Sound.keep _ _ _ _ _ _ [j] [] hmeaning hkeep ?_ _ [] ?_ ?_ ?_ hsoundRest
      · intro k s _ hs
        rw [subscribersOf_endCompute]
        exact hs
      · intro p hp fn' cached' hcomputing
        rw [bodyAt_endCompute, if_neg (hfresh p hp)]
        exact hcomputing
      · intro p hp _
        exact ⟨fun hmem => hfresh p hp (mem_singleton.mp hmem), trivial⟩
      · intro _ _ _ _ _ h; cases h
    obtain ⟨new, hnew, hvalue⟩ := ended_body hbody (some i) outcome
    have hsub : i ∈ (m.graph.endCompute j (some i) outcome).subscribersOf j := by
      rw [subscribersOf_endCompute]
      obtain ⟨⟨_, _, _, _, _, hrani⟩, _⟩ := hsoundRest
      have hne : i ∉ [j] := fun hmem =>
        hfresh (i, .read j next) mem_cons_self (mem_singleton.mp hmem)
      exact (hrani hne).2 j rfl
    refine ⟨hrest.recode _, sound_answered hsound' hsub (Or.inr ⟨fn, ⟨new, .clean, hnew⟩, ?_, ?_⟩),
      ⟨?_, Or.inl rfl⟩, hcached'⟩
    · exact ⟨fn, new, hnew, hvalue⟩
    · exact htraced.keep hkeep trivial
    · exact current_apply m.graph (.endCompute j (some i) outcome)

theorem read_step {j id : ℕ} {next : Except E V → Code V E W} {rest : List (ℕ × Code V E W)}
    (h : Evaluating m ((j, .read id next) :: rest)) (hcurrent : m.graph.currentSubscriber = some j)
    (hcontrol : m.control = .run (.read id next)) : ∃ positions, Evaluating m.step positions := by
  obtain ⟨hstack, hsound, htop, hcached⟩ := h
  refine ⟨(j, .read id next) :: rest, ?_⟩
  by_cases hreadable : op m = .track id
  · have hquiet : Quiet (op m) := by
      rw [hreadable]
      exact ⟨(by intro _ h; cases h), (by intro _ _ _ h; cases h), fun h => h⟩
    have hstep : m.step = { m with graph := m.graph.track id, control := .run (.peek id next) } := by
      obtain ⟨_, _, hbody⟩ := op_track hreadable
      rcases hbody with ⟨value, hbody⟩ | ⟨fn, cached, state, hbody⟩
      · simp only [step, hcontrol, call, hbody, goOn]
      · simp only [step, hcontrol, call, hbody, goOn]
    have hkeep := keeps_quiet hquiet
    have hcached' := cached_quiet hquiet hcached
    have hmeaning := sameMeaning_apply m.graph (op m) (by rw [hreadable]; intro _ _ h; cases h)
    rw [← step_graph] at hmeaning
    rw [hstep] at hkeep hcached' hmeaning ⊢
    have hsubs : ∀ k s, k ∈ m.graph.subscribersOf s → k ∈ (m.graph.track id).subscribersOf s := by
      intro k s hs
      rw [mem_subscribersOf_track]
      exact Or.inl hs
    refine ⟨hstack, ?_, ⟨?_, Or.inr (Or.inl ⟨id, next, rfl, rfl, ?_⟩)⟩, hcached'⟩
    · refine @Sound.keep _ _ _ _ _ _ [] [] hmeaning hkeep (fun k s _ => hsubs k s) _ [] ?_ ?_ ?_ hsound
      · intro p _ fn cached hp
        exact (bodyAt_track m.graph id p.1).trans hp
      · intro p hp _
        obtain ⟨fn, cached, hcomputing⟩ := hsound.computing p hp
        exact ⟨not_mem_nil, fn, cached, .computing, hcomputing⟩
      · intro _ _ _ _ _ h; cases h
    · exact (current_apply m.graph (.track id)).trans hcurrent
    · rw [mem_subscribersOf_track]
      refine Or.inr ⟨hcurrent, rfl, ?_⟩
      obtain ⟨_, _, hbody⟩ := op_track hreadable
      rcases hbody with ⟨value, hbody⟩ | ⟨fn, cached, state, hbody⟩
      · exact lt_length _ _ hbody
      · exact lt_length _ _ hbody
  · have hstep : m.step = m := by
      simp only [step, hcontrol, call]
      simp only [op, hcontrol, callOp] at hreadable
      rcases hbody : m.graph.bodyAt id with _ | _ | _ | _
      · rfl
      · exact absurd (by rw [hbody]) hreadable
      · exact absurd (by rw [hbody]) hreadable
      · rfl
    rw [hstep]
    exact ⟨hstack, hsound, htop, hcached⟩

theorem evaluation_step (hpure : Pure m) (hfinds : FindsNoThrow m) (h : Evaluating m positions) :
    ∃ positions', Evaluating m.step positions' := by
  cases positions with
  | nil => exact base_step hpure h
  | cons position rest =>
    obtain ⟨j, c⟩ := position
    obtain ⟨hcurrent, hrun | ⟨id, next, rfl, hcontrol, hsub⟩ | ⟨outcome, hreturns, hcontrol⟩⟩ :=
      h.top
    · obtain ⟨⟨fn, cached, hbody, hreach, hreads, hran⟩, hrest⟩ := h.sound
      cases c with
      | done value =>
        refine ⟨(j, .done value) :: rest, ?_⟩
        have hstep : m.step = { m with control := .unwind (.ok value) } := by
          simp only [step, hrun, call]
        rw [hstep]
        exact ⟨h.stack, h.sound, ⟨hcurrent, Or.inr (Or.inr ⟨_, rfl, rfl⟩)⟩, h.cached⟩
      | throw error =>
        refine ⟨(j, .throw error) :: rest, ?_⟩
        have hstep : m.step = { m with control := .unwind (.error error) } := by
          simp only [step, hrun, call]
        rw [hstep]
        exact ⟨h.stack, h.sound, ⟨hcurrent, Or.inr (Or.inr ⟨_, rfl, rfl⟩)⟩, h.cached⟩
      | read id next => exact read_step h hcurrent hrun
      | _ => exact hreads.elim
    · exact peek_step hpure hfinds h hcurrent hcontrol hsub
    · exact end_step h hreturns hcontrol

/-! ### Runs -/

theorem evaluating_run {main : Code V E W} {host : W} (hpure : PureComputeds main)
    (hfinds : ∀ n, FindsNoThrow (runOf main host n)) (n : ℕ) :
    ∃ positions, Evaluating (runOf main host n) positions := by
  induction n with
  | zero =>
    refine ⟨[], .base (fun _ _ _ h => nomatch h), trivial, trivial, ?_⟩
    exact fun _ _ _ h => nomatch h
  | succ n ih =>
    obtain ⟨positions, h⟩ := ih
    exact evaluation_step (pure_run hpure host n) (hfinds n) h

omit [Inhabited V] [DecidableEq V] in
/-- A read of a computed is answered what its function does now. -/
theorem answer_current (hfinds : FindsNoThrow m) (h : Evaluating m positions) {id : ℕ}
    {outcome : Except E V} (hanswer : readAnswer m = some (id, outcome)) :
    CurrentOutcome m.graph id outcome := by
  rw [readAnswer] at hanswer
  split at hanswer
  · next _ _ j next hcontrol =>
      split at hanswer
      · next fn cached hbody =>
          cases hanswer
          have htraced := h.cached.outcome hbody fun error =>
            hfinds id next fn cached error hcontrol hbody
          exact ⟨fn, cached, .clean, hbody, htraced.yields⟩
      · cases hanswer
  · next outcome' j prev next stack hcontrol hstack =>
      cases hanswer
      cases positions with
      | nil =>
        have hframes := h.stack.no_frames id prev next
        rw [hstack] at hframes
        exact absurd mem_cons_self hframes
      | cons position rest =>
        obtain ⟨k, c⟩ := position
        obtain ⟨_, _, _, hframe, _⟩ := h.stack.top_frame
        rw [hstack] at hframe
        cases hframe
        obtain ⟨_, hrun | ⟨_, _, _, hpeek, _⟩ | ⟨outcome', hreturns, hunwind⟩⟩ := h.top
        · rw [hcontrol] at hrun
          cases hrun
        · rw [hcontrol] at hpeek
          cases hpeek
        · rw [hcontrol] at hunwind
          cases hunwind
          obtain ⟨⟨fn, cached, hbody, hreach, _⟩, _⟩ := h.sound
          exact ⟨fn, cached, .computing, hbody, hreach.yields (.returns hreturns)⟩
  · cases hanswer

/-- The reads of computeds answer what the functions do on the current
values exactly if none of them finds a computed that is clean and whose
function throws. -/
theorem answersCurrent_iff (main : Code V E W) (host : W) (hpure : PureComputeds main) :
    AnswersCurrent main host ↔ ∀ n, FindsNoThrow (runOf main host n) := by
  constructor
  · intro hanswers n id next fn cached error hcontrol hbody hthrows
    have hanswer : readAnswer (runOf main host n) = some (id, .ok cached) := by
      simp only [readAnswer, hcontrol, hbody]
    obtain ⟨fn', cached', state, hbody', hreturns⟩ := hanswers n id (.ok cached) hanswer
    rw [hbody] at hbody'
    cases hbody'
    cases outcome_unique hthrows hreturns
  · intro hfinds n id outcome hanswer
    obtain ⟨positions, h⟩ := evaluating_run hpure hfinds n
    exact answer_current (hfinds n) h hanswer

end Step

/-- A computed whose function throws, read twice. A value is a number or
`undefined`. -/
def throwingComputed : Code (Option ℕ) Unit Unit :=
  .computed (.throw ()) fun c => .read c fun _ => .read c fun _ => .done none

theorem throwingComputed_pure :
    PureComputeds throwingComputed ∧
      (AnswersCurrent throwingComputed () ↔ ∀ n, FindsNoThrow (runOf throwingComputed () n)) := by
  have hpure : PureComputeds throwingComputed := ⟨trivial, fun _ _ _ => trivial⟩
  exact ⟨hpure, answersCurrent_iff throwingComputed () hpure⟩

/-- The second read returns `undefined`, and the function throws. -/
theorem thrown_then_undefined :
    PureComputeds throwingComputed ∧ ¬ AnswersCurrent throwingComputed () := by
  refine ⟨⟨trivial, fun _ _ _ => trivial⟩, ?_⟩
  intro hanswers
  obtain ⟨fn, cached, state, hbody, hreturns⟩ := hanswers 6 0 (.ok none) rfl
  cases hbody
  cases outcome_unique hreturns (.returns rfl : OutcomeOf _ (.throw ()) (.error ()))

end ThrowingComputeds

end Vertz.Proofs
