import Vertz.Proofs.TaskGraph

/-!
# `Vertz.Proofs.SchedulerRuns`: every order of finishing gives the same results

`Inv` is what holds after any actions. The nodes with results, and those
on their way through the queue, the channels and the workers, are a
`Countdown.Front` of the graph. The result of a node is the one that the
results of its dependencies call for, which they do not change any more,
so two finished runs agree on every node by induction along the edges.
The counters go by the number of nodes with results.
-/

namespace Vertz.Proofs

open Vertz.Lib Vertz.Native.Ci Vertz.Spec.SchedulerRun List

/-! ### What a node's result is -/

/-- The result of a node, given those of its dependencies. -/
def verdict (s : Scheduler) (nodeResults : ℕ → Option TaskResult) (nodeIdx : ℕ) : TaskResult :=
  if s.skips nodeResults nodeIdx then s.skippedResult nodeIdx else s.workerResult nodeIdx

theorem mem_reverseAdj {graph : TaskGraph} {nodeIdx : ℕ} {edge : ℕ × EdgeType} :
    edge ∈ graph.reverseAdj nodeIdx ↔ (edge.1, nodeIdx, edge.2) ∈ graph.edges := by
  simp only [TaskGraph.reverseAdj, mem_filterMap]
  constructor
  · intro ⟨⟨u, v, t⟩, he, hif⟩
    by_cases hv : v = nodeIdx
    · rw [if_pos hv] at hif
      cases hif
      exact hv ▸ he
    · rw [if_neg hv] at hif
      cases hif
  · intro he
    exact ⟨(edge.1, nodeIdx, edge.2), he, if_pos rfl⟩

/-- The edge relation of the scheduler's graph. -/
abbrev Dep (s : Scheduler) : ℕ → ℕ → Prop :=
  Countdown.Edge s.graph.successors s.graph.nodeCount

variable {s : Scheduler}

theorem dep_of_mem {nodeIdx : ℕ} {edge : ℕ × EdgeType} (h : edge ∈ s.graph.reverseAdj nodeIdx) :
    Dep s edge.1 nodeIdx :=
  edge_iff.mpr ⟨edge.2, mem_reverseAdj.mp h⟩

/-- Whether a node is skipped depends on its dependencies' results only. -/
theorem skips_congr {results results' : ℕ → Option TaskResult} {nodeIdx : ℕ}
    (h : ∀ i, Dep s i nodeIdx → results i = results' i) :
    s.skips results nodeIdx = s.skips results' nodeIdx := by
  have hany : s.shouldSkipNode results nodeIdx = s.shouldSkipNode results' nodeIdx := by
    rw [Bool.eq_iff_iff]
    simp only [Scheduler.shouldSkipNode, any_eq_true]
    refine exists_congr fun edge => and_congr_right fun hedge => ?_
    simp only [Scheduler.blocks, h edge.1 (dep_of_mem hedge)]
  rw [Scheduler.skips, Scheduler.skips, hany]

theorem verdict_congr {results results' : ℕ → Option TaskResult} {nodeIdx : ℕ}
    (h : ∀ i, Dep s i nodeIdx → results i = results' i) :
    verdict s results nodeIdx = verdict s results' nodeIdx := by
  rw [verdict, verdict, skips_congr h]

/-! ### The invariant -/

/-- The nodes that were sent to the workers and have no result yet. -/
def sent (st : Scheduler.State) : List ℕ := st.ready ++ (st.running ++ st.results.map Prod.fst)

structure Inv (s : Scheduler) (concurrency : ℕ) (st : Scheduler.State) (closed : List ℕ) :
    Prop where
  front : Countdown.Front s.graph.successors s.graph.nodeCount st.inDegree closed
    (st.queue ++ sent st)
  closed_iff : ∀ i, i ∈ closed ↔ (st.nodeResults i).isSome
  settled : ∀ i ∈ closed, st.nodeResults i = some (verdict s st.nodeResults i)
  runs : ∀ i ∈ sent st, s.skips st.nodeResults i = false
  returned : ∀ r ∈ st.results, r.2 = s.workerResult r.1
  remaining : closed.length + st.remaining = s.graph.nodeCount
  counts : st.executed + st.cached + st.skipped = closed.length
  workers : st.seeding = false → st.workers = min concurrency s.graph.nodeCount

theorem inv_init (s : Scheduler) (concurrency : ℕ) : Inv s concurrency s.init [] := by
  constructor
  · show Countdown.Front _ _ s.graph.inDegree [] (s.graph.roots ++ [])
    rw [append_nil]
    exact Countdown.Front.init _ _
  · simp [Scheduler.init]
  · simp
  · simp [Scheduler.init, sent]
  · simp [Scheduler.init]
  · simp [Scheduler.init]
  · rfl
  · intro h
    cases h

variable {concurrency : ℕ} {st : Scheduler.State} {closed : List ℕ}

theorem not_dep_closed (h : Inv s concurrency st closed) {u v : ℕ} (hu : u ∈ st.queue ++ sent st)
    (hv : v ∈ closed ++ (st.queue ++ sent st)) : ¬ Dep s u v := by
  intro hdep
  have hclosed := h.front.pred_closed hv hdep
  exact (nodup_append.mp h.front.nodup).2.2 u hclosed u hu rfl

/-- Giving a pending node its result leaves the other nodes as they are. -/
theorem setResult_agrees (h : Inv s concurrency st closed) {u v : ℕ} (result : TaskResult)
    (hu : u ∈ st.queue ++ sent st) (hv : v ∈ closed ++ (st.queue ++ sent st)) :
    ∀ i, Dep s i v → st.setResult u result i = st.nodeResults i := by
  intro i hdep
  refine if_neg fun heq => ?_
  exact not_dep_closed h hu hv (heq ▸ hdep)

variable {st st' : Scheduler.State}

/-- A pending node gets the result it is to have, and the nodes it frees
join the queue. -/
theorem Inv.close {u : ℕ} (h : Inv s concurrency st closed) (rest : List ℕ)
    (hpending : (st.queue ++ sent st).Perm (u :: rest))
    (hdegree : st'.inDegree = (Countdown.release st.inDegree (s.graph.successors u)).1)
    (hqueue : (st'.queue ++ sent st').Perm
      (rest ++ (Countdown.release st.inDegree (s.graph.successors u)).2))
    (hresults : st'.nodeResults = st.setResult u (verdict s st.nodeResults u))
    (hsent : ∀ i ∈ sent st', i ∈ sent st) (hreturned : ∀ r ∈ st'.results, r ∈ st.results)
    (hremaining : st'.remaining = st.remaining - 1)
    (hcounts : st'.executed + st'.cached + st'.skipped = st.executed + st.cached + st.skipped + 1)
    (hworkers : st'.seeding = false → st.seeding = false ∧ st'.workers = st.workers) :
    Inv s concurrency st' (closed ++ [u]) := by
  have hu : u ∈ st.queue ++ sent st := hpending.mem_iff.mpr mem_cons_self
  have hagrees : ∀ v ∈ closed ++ (st.queue ++ sent st), ∀ i, Dep s i v →
      st.nodeResults i = st'.nodeResults i := by
    intro v hv i hdep
    rw [hresults]
    exact (setResult_agrees h _ hu hv i hdep).symm
  have hout : u ∉ closed := fun hin => (nodup_append.mp h.front.nodup).2.2 u hin u hu rfl
  have hfront := (h.front.of_perm (List.Perm.refl _) hpending).close (successors_bounded s.graph)
  constructor
  · rw [hdegree]
    exact hfront.of_perm (List.Perm.refl _) hqueue.symm
  · intro i
    rw [mem_append, mem_singleton, h.closed_iff i, hresults]
    by_cases heq : i = u
    · simp [Scheduler.State.setResult, heq]
    · simp [Scheduler.State.setResult, heq]
  · intro i hi
    rcases mem_append.mp hi with hi | hi
    · have hne : i ≠ u := fun heq => hout (heq ▸ hi)
      rw [← verdict_congr (hagrees i (mem_append_left _ hi)), ← h.settled i hi, hresults]
      exact if_neg hne
    · rw [mem_singleton.mp hi, ← verdict_congr (hagrees u (mem_append_right _ hu)),
        hresults]
      exact if_pos rfl
  · intro i hi
    have hin : i ∈ closed ++ (st.queue ++ sent st) :=
      mem_append_right _ (mem_append_right _ (hsent i hi))
    rw [← skips_congr (hagrees i hin)]
    exact h.runs i (hsent i hi)
  · intro r hr
    exact h.returned r (hreturned r hr)
  · have hlen := hfront.length_le
    have hsum := h.remaining
    rw [length_append, length_singleton] at hlen ⊢
    omega
  · rw [hcounts, h.counts, length_append, length_singleton]
  · intro hspawned
    obtain ⟨hold, heq⟩ := hworkers hspawned
    rw [heq]
    exact h.workers hold

/-- Moving a pending node on, with the results as they are. -/
theorem Inv.move (h : Inv s concurrency st closed) (hdegree : st'.inDegree = st.inDegree)
    (hresults : st'.nodeResults = st.nodeResults)
    (hqueue : (st'.queue ++ sent st').Perm (st.queue ++ sent st))
    (hruns : ∀ i ∈ sent st', s.skips st.nodeResults i = false)
    (hreturned : ∀ r ∈ st'.results, r.2 = s.workerResult r.1)
    (hremaining : st'.remaining = st.remaining)
    (hcounts : st'.executed + st'.cached + st'.skipped = st.executed + st.cached + st.skipped)
    (hworkers : st'.seeding = false → st'.workers = min concurrency s.graph.nodeCount) :
    Inv s concurrency st' closed := by
  constructor
  · rw [hdegree]
    exact h.front.of_perm (List.Perm.refl _) hqueue.symm
  · rw [hresults]
    exact h.closed_iff
  · rw [hresults]
    exact h.settled
  · rw [hresults]
    exact hruns
  · exact hreturned
  · rw [hremaining]
    exact h.remaining
  · rw [hcounts]
    exact h.counts
  · exact hworkers

/-! ### What a step does -/

theorem counted_once (result : TaskResult) :
    (if Scheduler.isExecuted result then 1 else 0) + (if result.cached then 1 else 0) +
      (if Scheduler.isSkipped result then 1 else 0) = 1 := by
  obtain ⟨status, _, _, _, _, cached⟩ := result
  cases cached <;> cases status <;> rfl

/-- What a step can do: settle the first node of the queue, spawn the
workers, take, finish or receive a node. -/
inductive StepCase (s : Scheduler) (concurrency : ℕ) (st : Scheduler.State) :
    Scheduler.Action → Scheduler.State → Prop where
  | skipped {u : ℕ} {rest : List ℕ} (hqueue : st.queue = u :: rest)
      (hskip : s.skips st.nodeResults u = true) :
      StepCase s concurrency st .settle (s.skip st u rest)
  | sent {u : ℕ} {rest : List ℕ} (hqueue : st.queue = u :: rest)
      (hskip : s.skips st.nodeResults u = false) :
      StepCase s concurrency st .settle { st with queue := rest, ready := st.ready ++ [u] }
  | spawn (hseeding : st.seeding = true) (hqueue : st.queue = []) :
      StepCase s concurrency st .spawn
        { st with seeding := false, workers := min concurrency s.graph.nodeCount }
  | take {u : ℕ} {rest : List ℕ} (hready : st.ready = u :: rest)
      (hfree : st.running.length < st.workers) :
      StepCase s concurrency st .take { st with ready := rest, running := u :: st.running }
  | finish {u : ℕ} (hrunning : u ∈ st.running) :
      StepCase s concurrency st (.finish u) { st with
        running := st.running.erase u, results := st.results ++ [(u, s.workerResult u)] }
  | receive {u : ℕ} {result : TaskResult} {rest : List (ℕ × TaskResult)}
      (hresults : st.results = (u, result) :: rest) (hseeding : st.seeding = false)
      (hqueue : st.queue = []) (hremaining : 0 < st.remaining) :
      StepCase s concurrency st .receive (s.record st u result rest)

variable {action : Scheduler.Action}

theorem step_cases (h : s.step concurrency st action = some st') :
    StepCase s concurrency st action st' := by
  cases action with
  | settle =>
    cases hqueue : st.queue with
    | nil => simp [Scheduler.step, hqueue] at h
    | cons u rest =>
      cases hskip : s.skips st.nodeResults u with
      | true =>
        simp only [Scheduler.step, hqueue, hskip, if_true, Option.some.injEq] at h
        exact h ▸ .skipped hqueue hskip
      | false =>
        simp only [Scheduler.step, hqueue, hskip, Bool.false_eq_true, if_false,
          Option.some.injEq] at h
        exact h ▸ .sent hqueue hskip
  | spawn =>
    by_cases hcond : st.seeding = true ∧ st.queue = []
    · rw [Scheduler.step, if_pos hcond] at h
      cases h
      exact .spawn hcond.1 hcond.2
    · rw [Scheduler.step, if_neg hcond] at h
      cases h
  | take =>
    cases hready : st.ready with
    | nil => simp [Scheduler.step, hready] at h
    | cons u rest =>
      by_cases hfree : st.running.length < st.workers
      · simp only [Scheduler.step, hready, if_pos hfree, Option.some.injEq] at h
        exact h ▸ .take hready hfree
      · simp [Scheduler.step, hready, hfree] at h
  | finish u =>
    by_cases hrunning : u ∈ st.running
    · rw [Scheduler.step, if_pos hrunning] at h
      cases h
      exact .finish hrunning
    · rw [Scheduler.step, if_neg hrunning] at h
      cases h
  | receive =>
    cases hresults : st.results with
    | nil => simp [Scheduler.step, hresults] at h
    | cons r rest =>
      by_cases hcond : st.seeding = false ∧ st.queue = [] ∧ 0 < st.remaining
      · simp only [Scheduler.step, hresults, if_pos hcond, Option.some.injEq] at h
        exact h ▸ .receive hresults hcond.1 hcond.2.1 hcond.2.2
      · simp [Scheduler.step, hresults, hcond] at h

/-- Every step keeps the invariant: the nodes with results stay, and at
most one is added. -/
theorem inv_step (h : Inv s concurrency st closed) (hstep : StepCase s concurrency st action st') :
    ∃ closed', Inv s concurrency st' closed' := by
  cases hstep with
  | @skipped u rest hqueue hskip =>
    refine ⟨closed ++ [u], h.close (rest ++ sent st) ?_ rfl ?_ ?_ (fun i hi => hi)
      (fun r hr => hr) rfl ?_ (fun hspawned => ⟨hspawned, rfl⟩)⟩
    · rw [hqueue]
      rfl
    · show ((rest ++ _) ++ sent st).Perm _
      rw [append_assoc, append_assoc]
      exact List.Perm.append_left rest perm_append_comm
    · rw [verdict, hskip]
      rfl
    · show st.executed + st.cached + (st.skipped + 1) = _
      omega
  | @sent u rest hqueue hskip =>
    have hsplit : sent { st with queue := rest, ready := st.ready ++ [u] } =
        st.ready ++ (u :: (st.running ++ st.results.map Prod.fst)) := by simp [sent]
    refine ⟨closed, h.move rfl rfl ?_ ?_ h.returned rfl rfl h.workers⟩
    · rw [hsplit, hqueue]
      show (rest ++ _).Perm (u :: rest ++ _)
      rw [← append_assoc]
      refine perm_middle.trans ?_
      rw [cons_append, append_assoc]
      exact List.Perm.refl _
    · rw [hsplit]
      intro i hi
      rcases mem_append.mp hi with hi | hi
      · exact h.runs i (mem_append_left _ hi)
      · rcases mem_cons.mp hi with hi | hi
        · rw [hi]
          exact hskip
        · exact h.runs i (mem_append_right _ hi)
  | spawn hseeding hqueue =>
    exact ⟨closed, h.move rfl rfl (List.Perm.refl _) h.runs h.returned rfl rfl (fun _ => rfl)⟩
  | @take u rest hready hfree =>
    have hperm : (sent { st with ready := rest, running := u :: st.running }).Perm (sent st) := by
      rw [sent, sent, hready]
      show (rest ++ (u :: _)).Perm (u :: (rest ++ _))
      exact perm_middle
    refine ⟨closed, h.move rfl rfl (hperm.append_left _) ?_ h.returned rfl rfl h.workers⟩
    intro i hi
    exact h.runs i (hperm.mem_iff.mp hi)
  | @finish u hrunning =>
    have hperm : (sent { st with
        running := st.running.erase u, results := st.results ++ [(u, s.workerResult u)] }).Perm
        (sent st) := by
      simp only [sent, map_append, map_cons, map_nil]
      refine List.Perm.append_left _ ?_
      refine List.Perm.trans ?_ ((perm_cons_erase hrunning).symm.append_right _)
      rw [← append_assoc]
      exact perm_append_comm
    refine ⟨closed, h.move rfl rfl (hperm.append_left _) ?_ ?_ rfl rfl h.workers⟩
    · intro i hi
      exact h.runs i (hperm.mem_iff.mp hi)
    · intro r hr
      rcases mem_append.mp hr with hr | hr
      · exact h.returned r hr
      · rw [mem_singleton.mp hr]
  | @receive u result rest hresults hseeding hqueue hremaining =>
    have hresult : result = s.workerResult u :=
      h.returned (u, result) (by rw [hresults]; exact mem_cons_self)
    have hrun : s.skips st.nodeResults u = false := by
      refine h.runs u ?_
      rw [sent, hresults]
      simp
    have hsent : sent st = st.ready ++ (st.running ++ u :: rest.map Prod.fst) := by
      rw [sent, hresults]
      rfl
    refine ⟨closed ++ [u], h.close (st.ready ++ (st.running ++ rest.map Prod.fst)) ?_ rfl
      ?_ ?_ ?_ ?_ rfl ?_ (fun hspawned => ⟨hspawned, rfl⟩)⟩
    · rw [hqueue, hsent, nil_append, ← append_assoc]
      refine perm_middle.trans ?_
      rw [append_assoc]
    · show (_ ++ (st.ready ++ (st.running ++ rest.map Prod.fst))).Perm _
      exact perm_append_comm
    · rw [verdict, hrun, hresult]
      rfl
    · intro i hi
      rw [hsent]
      change i ∈ st.ready ++ (st.running ++ rest.map Prod.fst) at hi
      simp only [mem_append, mem_cons] at hi ⊢
      rcases hi with hi | hi | hi
      · exact Or.inl hi
      · exact Or.inr (Or.inl hi)
      · exact Or.inr (Or.inr (Or.inr hi))
    · intro r hr
      rw [hresults]
      exact mem_cons_of_mem _ hr
    · have hone := counted_once result
      show (st.executed + _) + (st.cached + _) + (st.skipped + _) = _
      omega

theorem inv_reached (h : Reached s concurrency st) : ∃ closed, Inv s concurrency st closed := by
  induction h with
  | refl => exact ⟨[], inv_init s concurrency⟩
  | tail _ hstep ih =>
    obtain ⟨closed, hinv⟩ := ih
    obtain ⟨action, hstep⟩ := hstep
    exact inv_step hinv (step_cases hstep)

/-! ### Termination -/

/-- How many steps the nodes still have to go: a node without a result is
settled, taken, finished and received. -/
def stepsLeft (st : Scheduler.State) : ℕ :=
  4 * (st.remaining - (sent st).length) + 3 * st.ready.length + 2 * st.running.length +
    st.results.length + (if st.seeding = true then 1 else 0)

theorem length_sent (st : Scheduler.State) :
    (sent st).length = st.ready.length + (st.running.length + st.results.length) := by
  simp [sent]

theorem Inv.pending_le (h : Inv s concurrency st closed) :
    st.queue.length + (sent st).length ≤ st.remaining := by
  have hlen := h.front.length_le
  have hsum := h.remaining
  rw [length_append] at hlen
  omega

theorem stepsLeft_lt (h : Inv s concurrency st closed)
    (hstep : StepCase s concurrency st action st') : stepsLeft st' < stepsLeft st := by
  have hle := h.pending_le
  have hsent := length_sent st
  cases hstep with
  | @skipped u rest hqueue hskip =>
    rw [hqueue, length_cons] at hle
    show 4 * ((st.remaining - 1) - (sent st).length) + 3 * st.ready.length +
      2 * st.running.length + st.results.length + (if st.seeding = true then 1 else 0) < _
    unfold stepsLeft
    omega
  | @sent u rest hqueue hskip =>
    rw [hqueue, length_cons] at hle
    simp only [stepsLeft, length_sent, length_append, length_cons, length_nil]
    omega
  | spawn hseeding hqueue =>
    simp only [stepsLeft, length_sent, hseeding, if_true, Bool.false_eq_true, if_false]
    omega
  | @take u rest hready hfree =>
    rw [hready, length_cons] at hsent
    simp only [stepsLeft, length_sent, hready, length_cons]
    omega
  | @finish u hrunning =>
    have hpos : 0 < st.running.length := length_pos_of_mem hrunning
    simp only [stepsLeft, length_sent, length_append, length_cons, length_nil,
      length_erase_of_mem hrunning]
    omega
  | @receive u result rest hresults hseeding hqueue hremaining =>
    rw [hresults, length_cons] at hsent
    show 4 * ((st.remaining - 1) - (sent (s.record st u result rest)).length) +
      3 * st.ready.length + 2 * st.running.length + rest.length +
      (if st.seeding = true then 1 else 0) < _
    have hnew : (sent (s.record st u result rest)).length =
        st.ready.length + (st.running.length + rest.length) := by
      simp [sent, Scheduler.record]
    simp only [stepsLeft, hnew, hresults, length_cons]
    omega

theorem steps_le {k : ℕ} (h : Inv s concurrency st closed)
    (hsteps : Steps (Step s concurrency) k st st') : k + stepsLeft st' ≤ stepsLeft st := by
  induction hsteps generalizing closed with
  | here => omega
  | step hstep _ ih =>
    obtain ⟨action, hstep⟩ := hstep
    obtain ⟨closed', hinv⟩ := inv_step h (step_cases hstep)
    have hlt := stepsLeft_lt h (step_cases hstep)
    have hrest := ih hinv
    omega

/-- A run that has not finished can go on. -/
theorem exists_step (hconc : 1 ≤ concurrency) (hwf : WellFounded (Dep s))
    (h : Inv s concurrency st closed) (hnot : ¬ st.Done) : ∃ st', Step s concurrency st st' := by
  cases hqueue : st.queue with
  | cons u rest =>
    cases hskip : s.skips st.nodeResults u with
    | true => exact ⟨s.skip st u rest, .settle, by simp [Scheduler.step, hqueue, hskip]⟩
    | false =>
      exact ⟨{ st with queue := rest, ready := st.ready ++ [u] }, .settle,
        by simp [Scheduler.step, hqueue, hskip]⟩
  | nil =>
    cases hseeding : st.seeding with
    | true => exact ⟨_, .spawn, by rw [Scheduler.step, if_pos ⟨hseeding, hqueue⟩]⟩
    | false =>
      have hremaining : 0 < st.remaining := by
        by_contra hzero
        exact hnot ⟨hseeding, hqueue, by omega⟩
      have hsum := h.remaining
      cases hresults : st.results with
      | cons r rest =>
        exact ⟨s.record st r.1 r.2 rest, .receive,
          by simp [Scheduler.step, hresults, hseeding, hqueue, hremaining]⟩
      | nil =>
        cases hrunning : st.running with
        | cons u rest =>
          have hmem : u ∈ st.running := by
            rw [hrunning]
            exact mem_cons_self
          exact ⟨_, .finish u, by rw [Scheduler.step, if_pos hmem]⟩
        | nil =>
          cases hready : st.ready with
          | cons u rest =>
            have hfree : st.running.length < st.workers := by
              rw [h.workers hseeding, hrunning, length_nil]
              omega
            exact ⟨{ st with ready := rest, running := u :: st.running }, .take,
              by simp [Scheduler.step, hready, hfree]⟩
          | nil =>
            -- nothing is pending, so every node has a result
            have hfront := h.front
            rw [show st.queue ++ sent st = [] by
              simp [sent, hqueue, hready, hrunning, hresults]] at hfront
            have hperm := hfront.perm_range (fun v hv => hfront.complete hwf hv)
            have hlen := hperm.length_eq
            rw [length_range] at hlen
            omega

/-! ### Finished runs -/

theorem Inv.closed_of_done (h : Inv s concurrency st closed) (hdone : st.Done) {i : ℕ}
    (hi : i < s.graph.nodeCount) : i ∈ closed := by
  have hsum := h.remaining
  rw [hdone.2.2, Nat.add_zero] at hsum
  have hsub : closed.Subperm (List.range s.graph.nodeCount) :=
    h.front.closed_nodup.subperm (fun v hv => mem_range.mpr (h.front.closed_below v hv))
  have hperm := hsub.perm_of_length_le (by rw [length_range, hsum])
  exact hperm.mem_iff.mpr (mem_range.mpr hi)

theorem results_agree (hwf : WellFounded (Dep s)) {c c' : ℕ} {closed closed' : List ℕ}
    (h : Inv s c st closed) (h' : Inv s c' st' closed') (hdone : st.Done) (hdone' : st'.Done)
    {i : ℕ} (hi : i < s.graph.nodeCount) : st.nodeResults i = st'.nodeResults i := by
  induction i using hwf.induction with
  | _ i ih =>
    rw [h.settled i (h.closed_of_done hdone hi), h'.settled i (h'.closed_of_done hdone' hi)]
    rw [verdict_congr (fun j hdep => ih j hdep hdep.1)]

theorem dep_wellFounded (hacyclic : ¬ Countdown.Cyclic s.graph.successors s.graph.nodeCount) :
    WellFounded (Dep s) :=
  (Countdown.wellFounded_iff (successors_bounded s.graph)).mpr hacyclic

/-- There is a run to the end, for one by one the steps come to a stop. -/
theorem exists_finished (hconc : 1 ≤ concurrency) (hwf : WellFounded (Dep s)) :
    ∃ st, Reached s concurrency st ∧ st.Done := by
  have hrun : ∀ n st, Reached s concurrency st → stepsLeft st = n →
      ∃ st', Reached s concurrency st' ∧ st'.Done := by
    intro n
    induction n using Nat.strongRecOn with
    | _ n ih =>
      intro st hreach hn
      by_cases hdone : st.Done
      · exact ⟨st, hreach, hdone⟩
      · obtain ⟨closed, hinv⟩ := inv_reached hreach
        obtain ⟨st', action, hstep⟩ := exists_step hconc hwf hinv hdone
        have hlt := stepsLeft_lt hinv (step_cases hstep)
        exact ih (stepsLeft st') (by omega) st' (hreach.tail ⟨action, hstep⟩) rfl
  exact hrun _ s.init .refl rfl

/-! ### The results by label -/

theorem collected_entries (hall : ∀ i < s.graph.nodeCount, (st.nodeResults i).isSome) :
    ∃ f : ℕ → TaskResult, (∀ i < s.graph.nodeCount, st.nodeResults i = some (f i)) ∧
      (List.range s.graph.nodeCount).filterMap (fun i =>
        (st.nodeResults i).map (fun result => ((s.nodeAt i).label, result))) =
      (List.range s.graph.nodeCount).map (fun i => ((s.nodeAt i).label, f i)) := by
  refine ⟨fun i => (st.nodeResults i).getD (s.skippedResult i), ?_, ?_⟩
  · intro i hi
    obtain ⟨result, hresult⟩ := Option.isSome_iff_exists.mp (hall i hi)
    simp [hresult]
  · rw [← filterMap_eq_map]
    refine filterMap_congr fun i hi => ?_
    obtain ⟨result, hresult⟩ := Option.isSome_iff_exists.mp (hall i (mem_range.mp hi))
    simp [hresult]

theorem labels_eq (s : Scheduler) :
    (List.range s.graph.nodeCount).map (fun i => (s.nodeAt i).label) =
      s.graph.nodes.map TaskNode.label := by
  refine ext_getElem (by simp [TaskGraph.nodeCount]) ?_
  intro i hi hi'
  have hlt : i < s.graph.nodes.length := by simpa [TaskGraph.nodeCount] using hi'
  rw [getElem_map, getElem_range, getElem_map, Scheduler.nodeAt,
    getElem?_eq_getElem hlt]
  rfl

/-- What is returned has one result for each node when no two nodes have
one label. -/
theorem oneResultEach_iff (hall : ∀ i < s.graph.nodeCount, (st.nodeResults i).isSome) :
    OneResultEach s st ↔ (s.graph.nodes.map TaskNode.label).Nodup := by
  obtain ⟨f, hf, hentries⟩ := collected_entries hall
  have hcollect : (s.collect st).results = .ofList
      ((List.range s.graph.nodeCount).map (fun i => ((s.nodeAt i).label, f i))) := by
    rw [← hentries]
    rfl
  have hkeys : ((List.range s.graph.nodeCount).map (fun i => ((s.nodeAt i).label, f i))).map
      Prod.fst = s.graph.nodes.map TaskNode.label := by
    rw [map_map, ← labels_eq]
    rfl
  constructor
  · intro h
    -- as many distinct labels as nodes
    have hlen : (s.collect st).results.keys.length = s.graph.nodeCount := by
      rw [Record.keys, length_map]
      exact h.1
    have hsub : (s.collect st).results.keys.Subperm (s.graph.nodes.map TaskNode.label) := by
      refine (s.collect st).results.nodup.subperm (fun label hlabel => ?_)
      obtain ⟨e, he, rfl⟩ := mem_map.mp hlabel
      rw [hcollect] at he
      rw [← hkeys]
      exact mem_map_of_mem (Record.mem_of_mem_ofList he)
    have hperm := hsub.perm_of_length_le (by
      rw [hlen, length_map]
      exact Nat.le_refl _)
    exact hperm.nodup_iff.mp (s.collect st).results.nodup
  · intro hnodup
    rw [← hkeys] at hnodup
    have heq := Record.entries_ofList hnodup
    refine ⟨?_, ?_⟩
    · rw [hcollect, heq, length_map, length_range]
    · intro i hi
      refine ⟨f i, hf i hi, ?_⟩
      rw [hcollect, ← Record.mem_entries_iff, heq]
      exact mem_map.mpr ⟨i, mem_range.mpr hi, rfl⟩

theorem results_of_done (hreach : Reached s concurrency st) (hdone : st.Done) :
    ∀ i < s.graph.nodeCount, (st.nodeResults i).isSome := by
  intro i hi
  obtain ⟨closed, hinv⟩ := inv_reached hreach
  exact (hinv.closed_iff i).mp (hinv.closed_of_done hdone hi)

/-! ### Single steps -/

theorem result_kept (h : Inv s concurrency st closed) (hstep : StepCase s concurrency st action st')
    {i : ℕ} {result : TaskResult} (hi : st.nodeResults i = some result) :
    st'.nodeResults i = some result := by
  have hclosed : i ∈ closed := (h.closed_iff i).mpr (by rw [hi]; rfl)
  have hother : ∀ u ∈ st.queue ++ sent st, ∀ r, st.setResult u r i = some result := by
    intro u hu r
    have hne : i ≠ u := (nodup_append.mp h.front.nodup).2.2 i hclosed u hu
    rw [← hi]
    exact if_neg hne
  cases hstep with
  | skipped hqueue _ => exact hother _ (by rw [hqueue]; simp) _
  | sent => exact hi
  | spawn => exact hi
  | take => exact hi
  | finish => exact hi
  | receive hresults _ _ _ => exact hother _ (by simp [sent, hresults]) _

theorem deps_of_sent (h : Inv s concurrency st closed) {u : ℕ} (hu : u ∈ sent st) :
    ∀ edge ∈ s.graph.reverseAdj u, (st.nodeResults edge.1).isSome := by
  intro edge hedge
  have hpending : u ∈ closed ++ (st.queue ++ sent st) :=
    mem_append_right _ (mem_append_right _ hu)
  exact (h.closed_iff edge.1).mp (h.front.pred_closed hpending (dep_of_mem hedge))

/-- On a graph without cycles the scheduler is correct exactly when no two
nodes have the same label. -/
theorem schedules_correctly_iff (s : Scheduler)
    (hacyclic : ¬ Countdown.Cyclic s.graph.successors s.graph.nodeCount) :
    SchedulesCorrectly s ↔ (s.graph.nodes.map TaskNode.label).Nodup := by
  have hwf := dep_wellFounded hacyclic
  constructor
  · intro h
    obtain ⟨st, hreach, hdone⟩ := exists_finished (Nat.le_refl 1) hwf
    exact (oneResultEach_iff (results_of_done hreach hdone)).mp
      (h.results 1 (Nat.le_refl 1) st hreach hdone)
  · intro hlabels
    constructor
    · intro concurrency _
      refine ⟨stepsLeft s.init, fun k st hsteps => ?_⟩
      have hle := steps_le (inv_init s concurrency) hsteps
      omega
    · intro concurrency hconc st hreach hstuck
      obtain ⟨closed, hinv⟩ := inv_reached hreach
      by_contra hnot
      obtain ⟨st', hstep⟩ := exists_step hconc hwf hinv hnot
      exact hstuck st' hstep
    · intro concurrency _ st hreach hdone
      exact (oneResultEach_iff (results_of_done hreach hdone)).mpr hlabels
    · intro concurrency _ st st' nodeIdx result hreach hstep hsome
      obtain ⟨closed, hinv⟩ := inv_reached hreach
      obtain ⟨action, hstep⟩ := hstep
      exact result_kept hinv (step_cases hstep) hsome
    · intro concurrency _ st st' nodeIdx hreach hstep hhead
      obtain ⟨closed, hinv⟩ := inv_reached hreach
      exact deps_of_sent hinv (mem_append_left _ (mem_of_mem_head? hhead))
    · intro c c' _ _ st st' hreach hdone hreach' hdone' nodeIdx hlt
      obtain ⟨closed, hinv⟩ := inv_reached hreach
      obtain ⟨closed', hinv'⟩ := inv_reached hreach'
      exact results_agree hwf hinv hinv' hdone hdone' hlt
    · intro concurrency _ st hreach hdone
      obtain ⟨closed, hinv⟩ := inv_reached hreach
      have hsum := hinv.remaining
      have hcounts := hinv.counts
      rw [hdone.2.2] at hsum
      show st.executed + st.cached + st.skipped = _
      omega

def emptyGraph : TaskGraph := ⟨[], [], fun _ => none, by simp⟩

/-- The tasks of a workflow on a machine where every command succeeds. -/
def quietScheduler (run : List String) (tasks : Record TaskDef) : Scheduler where
  graph :=
    match TaskGraph.build ⟨run⟩ tasks ⟨.empty⟩ none with
    | .ok graph => graph
    | .error _ => emptyGraph
  tasks := tasks
  changes := none
  currentBranch := "main"
  outcome := fun _ => .ran .success (some 0) 1
  evalCallback := fun _ _ => .ok true
  globMatches := fun pattern name => some (decide (pattern = name))
  envVar := fun _ => none

def buildAndTest : Scheduler := quietScheduler ["build", "test"] (.ofList
  [("build", .command "tsc" ⟨[], none, .root⟩),
    ("test", .command "bun test" ⟨[.simple "build"], none, .root⟩)])

theorem build_and_test_scheduled : SchedulesCorrectly buildAndTest :=
  (schedules_correctly_iff buildAndTest
    ((topologicalOrder_ok_iff buildAndTest.graph).mp ⟨[0, 1], rfl⟩)).mpr (by decide)

/-- A workflow that lists a task twice. -/
def lintTwice : Scheduler := quietScheduler ["lint", "lint"] (.ofList
  [("lint", .command "oxlint" ⟨[], none, .root⟩)])

theorem task_listed_twice_has_one_result : lintTwice.graph.nodeCount = 2 ∧
    ¬ Countdown.Cyclic lintTwice.graph.successors lintTwice.graph.nodeCount ∧
    ¬ SchedulesCorrectly lintTwice := by
  have hacyclic := (topologicalOrder_ok_iff lintTwice.graph).mp ⟨[0, 1], rfl⟩
  refine ⟨by decide, hacyclic, fun h => ?_⟩
  obtain ⟨st, hreach, hdone⟩ := exists_finished (Nat.le_refl 1) (dep_wellFounded hacyclic)
  have hlabels := (oneResultEach_iff (results_of_done hreach hdone)).mp
    (h.results 1 (Nat.le_refl 1) st hreach hdone)
  exact absurd hlabels (by decide)

end Vertz.Proofs
