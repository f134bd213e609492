import Vertz.Lib.Except
import Vertz.Spec.TaskGraph

/-!
# `Vertz.Proofs.TaskGraph`: when the builder makes the complete graph

The node table holds the nodes of the listed tasks, one for each time
they are listed, and then the missing nodes of the tasks these depend on.
An edge stands for a dependency of a listed task. The graph is therefore
complete exactly when no other node has a dependency in scope
(`builds_complete_iff`).
-/

namespace Vertz.Proofs

open Vertz.Lib Vertz.Native.Ci Vertz.Spec List

/-! ### The node table -/

variable {taskName : String} {node : TaskNode}

theorem mem_scopeNodes {scope : TaskScope} {active : NameSet} :
    node ∈ scopeNodes taskName scope active ↔ node.taskName = taskName ∧ match scope with
      | .root => node.package = none
      | .package => ∃ pkgName ∈ active.names, node.package = some pkgName := by
  obtain ⟨name, package⟩ := node
  cases scope with
  | root => simp [scopeNodes]
  | package =>
    simp only [scopeNodes, mem_map, TaskNode.mk.injEq]
    constructor
    · intro ⟨pkgName, hmem, hname, hpkg⟩
      exact ⟨hname.symm, pkgName, hmem, hpkg.symm⟩
    · intro ⟨hname, pkgName, hmem, hpkg⟩
      exact ⟨pkgName, hmem, hname.symm, hpkg.symm⟩

theorem nodup_scopeNodes (taskName : String) (scope : TaskScope) (active : NameSet) :
    (scopeNodes taskName scope active).Nodup := by
  cases scope with
  | root => exact nodup_singleton _
  | package =>
    refine active.nodup.map ?_
    intro p q h
    simpa using h

namespace NodeTableFacts

/-- Every node created is found by its name. -/
def Total (table : NodeTable) : Prop := ∀ node ∈ table.nodes, (table.index node).isSome

variable {table : NodeTable}

theorem total_push (h : Total table) (new : TaskNode) : Total (table.push new) := by
  intro node hnode
  show (if node = new then some table.nodes.length else table.index node).isSome
  by_cases heq : node = new
  · simp [heq]
  · rw [if_neg heq]
    rcases mem_append.mp hnode with hold | hnew
    · exact h node hold
    · exact absurd (mem_singleton.mp hnew) heq

theorem foldl_push (nodes : List TaskNode) (table : NodeTable) :
    (nodes.foldl NodeTable.push table).nodes = table.nodes ++ nodes := by
  induction nodes generalizing table with
  | nil => simp
  | cons node nodes ih =>
    rw [foldl_cons, ih]
    simp [NodeTable.push]

theorem total_foldl_push (h : Total table) (nodes : List TaskNode) :
    Total (nodes.foldl NodeTable.push table) := by
  induction nodes generalizing table with
  | nil => exact h
  | cons node nodes ih => exact ih (total_push h node)

/-- What creating the missing nodes of a list leaves: the old nodes stay
in front, and behind them are nodes of the list that were not there. -/
structure Extends (old new : NodeTable) (added : List TaskNode) : Prop where
  total : Total new
  nodes : ∃ extra, new.nodes = old.nodes ++ extra ∧ (∀ node ∈ extra, node ∈ added) ∧
    ∀ node ∈ extra, node ∉ old.nodes
  added : ∀ node ∈ added, node ∈ new.nodes

theorem Extends.refl (h : Total table) : Extends table table [] :=
  ⟨h, ⟨[], by simp⟩, by simp⟩

theorem Extends.trans {old mid new : NodeTable} {xs ys : List TaskNode} (h : Extends old mid xs)
    (h' : Extends mid new ys) : Extends old new (xs ++ ys) := by
  obtain ⟨extra, hnodes, hmem, hnot⟩ := h.nodes
  obtain ⟨extra', hnodes', hmem', hnot'⟩ := h'.nodes
  refine ⟨h'.total, ⟨extra ++ extra', ?_, ?_, ?_⟩, ?_⟩
  · rw [hnodes', hnodes, append_assoc]
  · intro node hin
    rcases mem_append.mp hin with hin | hin
    · exact mem_append_left _ (hmem node hin)
    · exact mem_append_right _ (hmem' node hin)
  · intro node hin hold
    rcases mem_append.mp hin with hin | hin
    · exact hnot node hin hold
    · apply hnot' node hin
      rw [hnodes]
      exact mem_append_left _ hold
  · intro node hin
    rcases mem_append.mp hin with hin | hin
    · rw [hnodes']
      exact mem_append_left _ (h.added node hin)
    · exact h'.added node hin

theorem extends_pushVacant (h : Total table) (new : TaskNode) :
    Extends table (table.pushVacant new) [new] := by
  unfold NodeTable.pushVacant
  cases hindex : table.index new with
  | some i =>
    have hmem : new ∈ table.nodes := mem_of_getElem? (table.indexed new i hindex)
    refine ⟨h, ⟨[], by simp⟩, ?_⟩
    intro node hnode
    rw [mem_singleton.mp hnode]
    exact hmem
  | none =>
    have hout : new ∉ table.nodes := by
      intro hmem
      have hsome := h new hmem
      rw [hindex] at hsome
      cases hsome
    refine ⟨total_push h new, ⟨[new], rfl, by simp, ?_⟩, ?_⟩
    · intro node hnode
      rw [mem_singleton.mp hnode]
      exact hout
    · intro node hnode
      exact mem_append_right _ hnode

theorem extends_foldl_pushVacant (h : Total table) (nodes : List TaskNode) :
    Extends table (nodes.foldl NodeTable.pushVacant table) nodes := by
  induction nodes generalizing table with
  | nil => exact .refl h
  | cons node nodes ih =>
    have hfirst := extends_pushVacant h node
    exact hfirst.trans (ih hfirst.total)

end NodeTableFacts

open NodeTableFacts

/-- The nodes of a task, if it exists. -/
def nodesOf (tasks : Record TaskDef) (active : NameSet) (taskName : String) : List TaskNode :=
  match tasks.get? taskName with
  | none => []
  | some taskDef => scopeNodes taskName taskDef.base.scope active

variable {c : CiRun}

theorem mem_nodesOf : node ∈ nodesOf c.tasks c.activePackages taskName ↔
      node.taskName = taskName ∧ c.InScope node := by
  unfold nodesOf CiRun.InScope
  cases hdef : c.tasks.get? taskName with
  | none =>
    simp only [not_mem_nil, false_iff, not_and]
    intro hname ⟨taskDef, hsome, _⟩
    rw [hname, hdef] at hsome
    cases hsome
  | some taskDef =>
    rw [mem_scopeNodes]
    constructor
    · intro ⟨hname, hscope⟩
      exact ⟨hname, taskDef, by rw [hname, hdef], hscope⟩
    · intro ⟨hname, taskDef', hsome, hscope⟩
      rw [hname, hdef] at hsome
      cases hsome
      exact ⟨hname, hscope⟩

theorem nodup_nodesOf (tasks : Record TaskDef) (active : NameSet) (taskName : String) :
    (nodesOf tasks active taskName).Nodup := by
  unfold nodesOf
  cases tasks.get? taskName with
  | none => exact nodup_nil
  | some taskDef => exact nodup_scopeNodes _ _ _

variable {table : NodeTable}

theorem createDepNodes_extends (tasks : Record TaskDef) (active : NameSet) (h : Total table)
    (depTasks : List String) :
    Extends table (createDepNodes tasks active depTasks table)
      (depTasks.flatMap (nodesOf tasks active)) := by
  induction depTasks generalizing table with
  | nil => exact .refl h
  | cons depTask depTasks ih =>
    have hfirst : Extends table
        (match tasks.get? depTask with
          | none => table
          | some taskDef =>
            (scopeNodes depTask taskDef.base.scope active).foldl NodeTable.pushVacant table)
        (nodesOf tasks active depTask) := by
      unfold nodesOf
      cases tasks.get? depTask with
      | none => exact .refl h
      | some taskDef => exact extends_foldl_pushVacant h _
    rw [flatMap_cons]
    exact hfirst.trans (ih hfirst.total)

variable {tasks : Record TaskDef}

theorem createRunNodes_ok (active : NameSet) {run : List String}
    (hknown : ∀ taskName ∈ run, (tasks.get? taskName).isSome) (htotal : Total table) :
    ∃ new, createRunNodes tasks active run table = .ok new ∧ Total new ∧
      new.nodes = table.nodes ++ run.flatMap (nodesOf tasks active) := by
  induction run generalizing table with
  | nil => exact ⟨table, rfl, htotal, by simp⟩
  | cons taskName run ih =>
    obtain ⟨taskDef, hdef⟩ := Option.isSome_iff_exists.mp (hknown taskName mem_cons_self)
    obtain ⟨new, hok, hnew, hnodes⟩ := ih
      (fun name hname => hknown name (mem_cons_of_mem _ hname))
      (total_foldl_push htotal (scopeNodes taskName taskDef.base.scope active))
    refine ⟨new, ?_, hnew, ?_⟩
    · rw [createRunNodes, hdef]
      exact hok
    · rw [hnodes, foldl_push, flatMap_cons, append_assoc]
      simp [nodesOf, hdef]

theorem createRunNodes_error (active : NameSet) {run : List String} (hmem : taskName ∈ run)
    (hunknown : tasks.get? taskName = none) (table : NodeTable) :
    ∃ e, createRunNodes tasks active run table = .error e := by
  induction run generalizing table with
  | nil => cases hmem
  | cons name run ih =>
    rw [createRunNodes]
    cases hdef : tasks.get? name with
    | none => exact ⟨_, rfl⟩
    | some taskDef =>
      rcases mem_cons.mp hmem with heq | hrest
      · rw [heq, hdef] at hunknown
        cases hunknown
      · exact ih hrest _

/-! ### The checks -/

theorem checkDep_ok_iff {taskDef : TaskDef} {dep : Dep} :
    checkDep tasks taskName taskDef dep = .ok () ↔ (tasks.get? (parseDepName dep).1).isSome ∧
        ¬ ((parseDepName dep).2 ∧ taskDef.base.scope = .root) := by
  simp only [checkDep]
  cases tasks.get? (parseDepName dep).1 with
  | none => simp
  | some depDef => by_cases h : (parseDepName dep).2 ∧ taskDef.base.scope = .root <;> simp [h]

theorem checkDeps_ok_iff {run : List String} :
    checkDeps tasks run = .ok () ↔ ∀ taskName ∈ run, ∀ taskDef, tasks.get? taskName = some taskDef →
        ∀ dep ∈ taskDef.base.deps, (tasks.get? (parseDepName dep).1).isSome ∧
          ¬ ((parseDepName dep).2 ∧ taskDef.base.scope = .root) := by
  rw [checkDeps, forM_eq_forM, forM_ok_iff]
  refine forall₂_congr fun taskName _ => ?_
  cases tasks.get? taskName with
  | none => simp
  | some taskDef =>
    simp only [Option.some.injEq, forall_eq', forM_eq_forM, forM_ok_iff, checkDep_ok_iff]

/-! ### The nodes of the graph -/

theorem mem_depTasksToAdd {depTask : String} :
    depTask ∈ depTasksToAdd c.workflow c.tasks ↔ depTask ∉ c.workflow.run ∧
      ∃ taskName ∈ c.workflow.run, ∃ taskDef, c.tasks.get? taskName = some taskDef ∧
        ∃ dep ∈ taskDef.base.deps, (parseDepName dep).1 = depTask := by
  simp only [depTasksToAdd, mem_flatMap]
  constructor
  · intro ⟨taskName, hrun, hmem⟩
    cases hdef : c.tasks.get? taskName with
    | none => simp [hdef] at hmem
    | some taskDef =>
      simp only [hdef, mem_filter, mem_map, decide_eq_true_eq] at hmem
      exact ⟨hmem.2, taskName, hrun, taskDef, hdef, hmem.1⟩
  · intro ⟨hout, taskName, hrun, taskDef, hdef, hdep⟩
    refine ⟨taskName, hrun, ?_⟩
    simp only [hdef, mem_filter, mem_map, decide_eq_true_eq]
    exact ⟨hdep, hout⟩

/-- The table that the builder makes of a run. -/
structure TableOf (c : CiRun) (table : NodeTable) : Prop where
  total : Total table
  mem : ∀ node, node ∈ table.nodes ↔ c.Direct node
  count : ∀ node, node.taskName ∈ c.workflow.run → c.InScope node →
    table.nodes.count node = c.workflow.run.count node.taskName

theorem count_nodesOf (hscope : c.InScope node) (run : List String) :
    (run.flatMap (nodesOf c.tasks c.activePackages)).count node = run.count node.taskName := by
  induction run with
  | nil => simp
  | cons taskName run ih =>
    rw [flatMap_cons, count_append, ih, count_cons]
    by_cases heq : node.taskName = taskName
    · have hone : (nodesOf c.tasks c.activePackages taskName).count node = 1 :=
        count_eq_one_of_mem (nodup_nodesOf _ _ _) (mem_nodesOf.mpr ⟨heq, hscope⟩)
      rw [hone]
      simp [heq]
      omega
    · have hzero : (nodesOf c.tasks c.activePackages taskName).count node = 0 :=
        count_eq_zero.mpr (fun hmem => heq (mem_nodesOf.mp hmem).1)
      have hne : ¬ taskName = node.taskName := fun h => heq h.symm
      rw [hzero]
      simp [hne]

theorem createNodes_ok (hrefs : c.ReferencesResolve) :
    ∃ table, createNodes c.workflow c.tasks c.activePackages = .ok table ∧ TableOf c table := by
  have hknown : ∀ taskName ∈ c.workflow.run, (c.tasks.get? taskName).isSome := by
    intro taskName hrun
    obtain ⟨taskDef, hdef, _⟩ := hrefs taskName hrun
    rw [hdef]
    rfl
  obtain ⟨first, hok, htotal, hfirst⟩ := createRunNodes_ok c.activePackages hknown
    (show Total .empty by intro node hnode; cases hnode)
  have hnodes : first.nodes = c.workflow.run.flatMap (nodesOf c.tasks c.activePackages) := by
    rw [hfirst]
    rfl
  have hext := createDepNodes_extends c.tasks c.activePackages htotal
    (depTasksToAdd c.workflow c.tasks)
  refine ⟨createDepNodes c.tasks c.activePackages (depTasksToAdd c.workflow c.tasks) first,
    by rw [createNodes, hok]; rfl, hext.total, ?_, ?_⟩
  · intro node
    obtain ⟨extra, hall, hextra, _⟩ := hext.nodes
    have hlisted : node ∈ first.nodes ↔ c.InScope node ∧ node.taskName ∈ c.workflow.run := by
      rw [hnodes, mem_flatMap]
      constructor
      · intro ⟨taskName, hrun, hmem⟩
        obtain ⟨hname, hscope⟩ := mem_nodesOf.mp hmem
        exact ⟨hscope, hname ▸ hrun⟩
      · intro ⟨hscope, hrun⟩
        exact ⟨node.taskName, hrun, mem_nodesOf.mpr ⟨rfl, hscope⟩⟩
    constructor
    · intro hmem
      rw [hall] at hmem
      rcases mem_append.mp hmem with hmem | hmem
      · have h := hlisted.mp hmem
        exact ⟨h.1, Or.inl h.2⟩
      · obtain ⟨depTask, hadd, hin⟩ := mem_flatMap.mp (hextra node hmem)
        obtain ⟨hname, hscope⟩ := mem_nodesOf.mp hin
        rw [← hname] at hadd
        exact ⟨hscope, Or.inr (mem_depTasksToAdd.mp hadd).2⟩
    · intro ⟨hscope, hdirect⟩
      by_cases hrun : node.taskName ∈ c.workflow.run
      · rw [hall]
        exact mem_append_left _ (hlisted.mpr ⟨hscope, hrun⟩)
      · rcases hdirect with hin | hdep
        · exact absurd hin hrun
        · refine hext.added node (mem_flatMap.mpr ⟨node.taskName, ?_, ?_⟩)
          · exact mem_depTasksToAdd.mpr ⟨hrun, hdep⟩
          · exact mem_nodesOf.mpr ⟨rfl, hscope⟩
  · intro node hrun hscope
    obtain ⟨extra, hall, hextra, _⟩ := hext.nodes
    -- the added nodes are of tasks that are not listed
    have hzero : extra.count node = 0 := by
      refine count_eq_zero.mpr (fun hmem => ?_)
      obtain ⟨depTask, hadd, hin⟩ := mem_flatMap.mp (hextra node hmem)
      rw [← (mem_nodesOf.mp hin).1] at hadd
      exact (mem_depTasksToAdd.mp hadd).1 hrun
    rw [hall, count_append, hzero, hnodes, count_nodesOf hscope]
    rfl

theorem TableOf.index (h : TableOf c table) (hdirect : c.Direct node) :
    ∃ i, table.index node = some i :=
  Option.isSome_iff_exists.mp (h.total node ((h.mem node).mpr hdirect))

theorem TableOf.direct (h : TableOf c table) {i : ℕ} (hi : table.nodes[i]? = some node) :
    c.Direct node :=
  (h.mem node).mp (mem_of_getElem? hi)

theorem TableOf.direct_of_index (h : TableOf c table) {i : ℕ} (hi : table.index node = some i) :
    c.Direct node :=
  h.direct (table.indexed node i hi)

/-! ### The edges of the graph -/

/-- A pair leads from the task that the dependency names to the task that
declares it. -/
theorem names_depPairs {workspace : ResolvedWorkspace} {taskDef : TaskDef} {dep : Dep}
    {pair : TaskNode × TaskNode} (h : pair ∈ depPairs tasks workspace taskName taskDef dep) :
    pair.1.taskName = (parseDepName dep).1 ∧ pair.2.taskName = taskName := by
  simp only [depPairs] at h
  cases hdep : tasks.get? (parseDepName dep).1 with
  | none => simp [hdep] at h
  | some depDef =>
    simp only [hdep] at h
    split at h
    · split at h
      · rw [mem_singleton.mp h]
        exact ⟨rfl, rfl⟩
      · obtain ⟨_, _, rfl⟩ := mem_map.mp h
        exact ⟨rfl, rfl⟩
    · split at h
      · obtain ⟨pkgName, _, h⟩ := mem_flatMap.mp h
        split at h
        · cases h
        · obtain ⟨_, _, rfl⟩ := mem_map.mp h
          exact ⟨rfl, rfl⟩
      · split at h <;> obtain ⟨_, _, rfl⟩ := mem_map.mp h <;> exact ⟨rfl, rfl⟩

/-- Between nodes in scope, the pairs of a dependency that was checked
are those it stands for, as far as the packages are known. -/
theorem mem_depPairs {node depNode : TaskNode} {dep : Dep} {taskDef : TaskDef}
    (hdef : c.tasks.get? node.taskName = some taskDef) (hnode : c.InScope node)
    (hdepNode : c.InScope depNode)
    (hcheck : ¬ ((parseDepName dep).2 ∧ taskDef.base.scope = .root)) :
    (depNode, node) ∈ depPairs c.tasks c.workspace node.taskName taskDef dep ↔
      c.StandsFor node dep depNode ∧ c.PackagesKnown node depNode := by
  obtain ⟨taskDef', hdef', hscope⟩ := hnode
  rw [hdef] at hdef'
  cases hdef'
  obtain ⟨depDef, hdepDef, hdepScope⟩ := hdepNode
  obtain ⟨name, package⟩ := node
  obtain ⟨depName, depPackage⟩ := depNode
  simp only at hdef hdepDef
  simp only [depPairs, CiRun.StandsFor, CiRun.PackagesKnown]
  by_cases hname : (parseDepName dep).1 = depName
  · rw [hname, hdepDef]
    cases htopo : (parseDepName dep).2 with
    | true =>
      have hpkg : taskDef.base.scope = .package := by
        cases hs : taskDef.base.scope with
        | root => exact absurd ⟨htopo, hs⟩ hcheck
        | package => rfl
      rw [hpkg] at hscope ⊢
      obtain ⟨pkgName, _, rfl⟩ := hscope
      simp only [if_true, mem_flatMap]
      constructor
      · intro ⟨p, hp, hmem⟩
        cases hget : c.workspace.packages.get? p with
        | none => simp [hget] at hmem
        | some pkg =>
          simp only [hget, mem_map, Prod.mk.injEq, TaskNode.mk.injEq, true_and,
            Option.some.injEq] at hmem
          obtain ⟨q, hq, hqe, hpe⟩ := hmem
          subst hpe
          refine ⟨⟨trivial, p, pkg, q, rfl, hget, hq, hqe.symm⟩, ?_, ?_⟩
          · intro p' hp'
            cases hp'
            exact hp
          · intro hnone
            cases hnone
      · intro ⟨⟨_, p, pkg, q, hp, hget, hq, hqe⟩, _⟩
        cases hp
        refine ⟨pkgName, (Record.mem_keys_iff _).mpr (by rw [hget]; rfl), ?_⟩
        simp only [hget, mem_map]
        exact ⟨q, hq, by rw [hqe]⟩
    | false =>
      cases hs : taskDef.base.scope with
      | root =>
        rw [hs] at hscope
        simp only at hscope
        subst hscope
        cases hds : depDef.base.scope with
        | root =>
          rw [hds] at hdepScope
          simp only at hdepScope
          subst hdepScope
          simp [hds]
        | package =>
          rw [hds] at hdepScope
          obtain ⟨q, _, rfl⟩ := hdepScope
          simp [hds]
      | package =>
        rw [hs] at hscope
        obtain ⟨p, _, rfl⟩ := hscope
        cases hds : depDef.base.scope with
        | root =>
          rw [hds] at hdepScope
          simp only at hdepScope
          subst hdepScope
          simp [hds]
        | package =>
          rw [hds] at hdepScope
          obtain ⟨q, _, rfl⟩ := hdepScope
          simp only [hds, Bool.false_eq_true, if_false, mem_map, Prod.mk.injEq,
            TaskNode.mk.injEq, true_and, Option.some.injEq, reduceCtorEq, false_or,
            forall_eq', false_implies, and_true]
          constructor
          · intro ⟨r, hr, hrq, hrp⟩
            subst hrq hrp
            exact ⟨rfl, hr⟩
          · intro ⟨hqp, hp⟩
            exact ⟨p, hp, hqp.symm, rfl⟩
  · exact iff_of_false (fun hmem => hname (names_depPairs hmem).1.symm) (fun h => hname h.1.1)

/-- An edge is a followed dependency between nodes of the table. -/
theorem mem_edges (hrefs : c.ReferencesResolve) (htable : TableOf c table) {e : Edge} :
    e ∈ createEdges c.tasks c.workspace table.index c.workflow.run ↔
      ∃ node dep depNode, table.index depNode = some e.1 ∧ table.index node = some e.2.1 ∧
        node.taskName ∈ c.workflow.run ∧ c.Declares node dep depNode ∧
        c.PackagesKnown node depNode ∧ e.2.2 = depEdgeType dep := by
  rw [mem_createEdges]
  constructor
  · intro ⟨taskName, hrun, taskDef, hdef, dep, hdep, pair, hpair, hfrom, hto, htype⟩
    obtain ⟨depNode, node⟩ := pair
    obtain ⟨taskDef', hdef', hchecks⟩ := hrefs taskName hrun
    rw [hdef] at hdef'
    cases hdef'
    have hname : node.taskName = taskName := (names_depPairs hpair).2
    subst hname
    have hnode := (htable.direct_of_index hto).1
    have hdepNode := (htable.direct_of_index hfrom).1
    have hpairs := (mem_depPairs hdef hnode hdepNode (hchecks dep hdep).2).mp hpair
    exact ⟨node, dep, depNode, hfrom, hto, hrun, ⟨⟨taskDef, hdef, hdep⟩, hpairs.1, hdepNode⟩,
      hpairs.2, htype⟩
  · intro ⟨node, dep, depNode, hfrom, hto, hrun, hdeclares, hknown, htype⟩
    obtain ⟨⟨taskDef, hdef, hdep⟩, hstands, hdepNode⟩ := hdeclares
    obtain ⟨taskDef', hdef', hchecks⟩ := hrefs node.taskName hrun
    rw [hdef] at hdef'
    cases hdef'
    have hnode := (htable.direct_of_index hto).1
    exact ⟨node.taskName, hrun, taskDef, hdef, dep, hdep, (depNode, node),
      (mem_depPairs hdef hnode hdepNode (hchecks dep hdep).2).mpr ⟨hstands, hknown⟩,
      hfrom, hto, htype⟩

/-! ### Cycles -/

theorem mem_successors {graph : TaskGraph} {u v : ℕ} :
    v ∈ graph.successors u ↔ ∃ edgeType, (u, v, edgeType) ∈ graph.edges := by
  simp only [TaskGraph.successors, TaskGraph.adjacency, mem_map, mem_filterMap]
  constructor
  · intro ⟨⟨w, t⟩, ⟨⟨u', e⟩, he, hif⟩, hw⟩
    by_cases hu : u' = u
    · rw [if_pos hu] at hif
      cases hif
      cases hw
      exact ⟨t, hu ▸ he⟩
    · rw [if_neg hu] at hif
      cases hif
  · intro ⟨t, he⟩
    exact ⟨(v, t), ⟨(u, v, t), he, if_pos rfl⟩, rfl⟩

theorem successors_bounded (graph : TaskGraph) :
    Countdown.Bounded graph.successors graph.nodeCount := by
  intro u _ v hv
  obtain ⟨edgeType, he⟩ := mem_successors.mp hv
  exact (graph.bounded _ he).2

theorem edge_iff {graph : TaskGraph} {u v : ℕ} :
    Countdown.Edge graph.successors graph.nodeCount u v ↔
      ∃ edgeType, (u, v, edgeType) ∈ graph.edges := by
  rw [Countdown.Edge, mem_successors]
  constructor
  · intro h
    exact h.2
  · intro ⟨edgeType, he⟩
    exact ⟨(graph.bounded _ he).1, edgeType, he⟩

/-- The sort succeeds on the graphs without cycles. -/
theorem topologicalOrder_ok_iff (graph : TaskGraph) :
    (∃ order, graph.topologicalOrder = .ok order) ↔
      ¬ Countdown.Cyclic graph.successors graph.nodeCount := by
  rw [← Countdown.drain_length_iff (successors_bounded graph) (Countdown.Front.init _ _)]
  show _ ↔ (Countdown.drain graph.successors graph.nodeCount graph.inDegree
    graph.roots).1.length = graph.nodeCount
  simp only [TaskGraph.topologicalOrder]
  by_cases h : (Countdown.drain graph.successors graph.nodeCount graph.inDegree
      graph.roots).1.length = graph.nodeCount
  · simp [h]
  · simp [h]

theorem follows_direct {depNode node : TaskNode} (h : c.Follows depNode node) :
    c.Direct depNode ∧ c.Direct node := by
  obtain ⟨hscope, hrun, _, dep, ⟨taskDef, hdef, hdep⟩, hstands, hdepScope⟩ := h
  exact ⟨⟨hdepScope, Or.inr ⟨node.taskName, hrun, taskDef, hdef, dep, hdep, hstands.1⟩⟩,
    hscope, Or.inl hrun⟩

/-- The edges of the graph are the followed dependencies, so one runs in a
cycle when the other does. -/
theorem cyclic_iff (hrefs : c.ReferencesResolve) (htable : TableOf c table) :
    Countdown.Cyclic (assemble c.tasks c.workspace c.workflow.run table).successors
        (assemble c.tasks c.workspace c.workflow.run table).nodeCount ↔
      ∃ node, Relation.TransGen c.Follows node node := by
  constructor
  · intro ⟨v, hcycle⟩
    refine ⟨_, hcycle.lift (fun i => (table.nodes[i]?).getD ⟨"", none⟩) ?_⟩
    intro i j he
    obtain ⟨edgeType, he⟩ := edge_iff.mp he
    obtain ⟨node, dep, depNode, hfrom, hto, hrun, hdeclares, hknown, _⟩ :=
      (mem_edges hrefs htable).mp he
    have hi := table.indexed _ _ hfrom
    have hj := table.indexed _ _ hto
    show c.Follows ((table.nodes[i]?).getD ⟨"", none⟩) ((table.nodes[j]?).getD ⟨"", none⟩)
    rw [show table.nodes[i]? = some depNode from hi, show table.nodes[j]? = some node from hj]
    exact ⟨(htable.direct_of_index hto).1, hrun, hknown, dep, hdeclares⟩
  · intro ⟨node, hcycle⟩
    refine ⟨_, hcycle.lift (fun node => (table.index node).getD 0) ?_⟩
    intro depNode node hfollows
    obtain ⟨hdepDirect, hdirect⟩ := follows_direct hfollows
    obtain ⟨i, hi⟩ := htable.index hdepDirect
    obtain ⟨j, hj⟩ := htable.index hdirect
    obtain ⟨_, hrun, hknown, dep, hdeclares⟩ := hfollows
    show Countdown.Edge _ _ ((table.index depNode).getD 0) ((table.index node).getD 0)
    rw [hi, hj]
    exact edge_iff.mpr ⟨depEdgeType dep,
      (mem_edges hrefs htable).mpr ⟨node, dep, depNode, hi, hj, hrun, hdeclares, hknown, rfl⟩⟩

/-! ### Completeness -/

/-- A node of a task that is listed once stands in one place. -/
theorem place_unique {nodes : List TaskNode} (hcount : nodes.count node = 1) {i j : ℕ}
    (hi : nodes[i]? = some node) (hj : nodes[j]? = some node) : i = j := by
  by_contra hne
  obtain ⟨hilt, hi⟩ := List.getElem?_eq_some_iff.mp hi
  obtain ⟨hjlt, hj⟩ := List.getElem?_eq_some_iff.mp hj
  have hdup : nodes.Duplicate node := by
    rw [duplicate_iff_exists_distinct_get]
    rcases Nat.lt_or_gt_of_ne hne with hlt | hgt
    · exact ⟨⟨i, hilt⟩, ⟨j, hjlt⟩, hlt, hi.symm, hj.symm⟩
    · exact ⟨⟨j, hjlt⟩, ⟨i, hilt⟩, hgt, hj.symm, hi.symm⟩
  have htwo := duplicate_iff_two_le_count.mp hdup
  omega

theorem direct_of_wanted (hall : c.AllFollowed) (h : c.Wanted node) : c.Direct node := by
  induction h with
  | run hrun hscope => exact ⟨hscope, Or.inl hrun⟩
  | dep _ hdep ih =>
    have hfollowed := hall _ _ _ ih hdep
    have hrun := count_pos_iff.mp (by rw [hfollowed.1]; exact Nat.one_pos)
    obtain ⟨⟨taskDef, hdef, hmem⟩, hstands, hscope⟩ := hdep
    exact ⟨hscope, Or.inr ⟨_, hrun, taskDef, hdef, _, hmem, hstands.1⟩⟩

/-- When everything is followed, a dependency of a direct node is one that
the builder follows. -/
theorem follows_of_declares (hall : c.AllFollowed) {node depNode : TaskNode} {dep : Dep}
    (hdirect : c.Direct node) (hdeclares : c.Declares node dep depNode) :
    c.Follows depNode node := by
  have hfollowed := hall _ _ _ hdirect hdeclares
  have hrun := count_pos_iff.mp (by rw [hfollowed.1]; exact Nat.one_pos)
  exact ⟨hdirect.1, hrun, hfollowed.2, dep, hdeclares⟩

theorem circular_of_follows (h : ∃ node, Relation.TransGen c.Follows node node) : c.Circular := by
  obtain ⟨node, hcycle⟩ := h
  refine ⟨node, Relation.TransGen.mono ?_ _ _ hcycle⟩
  intro depNode node hfollows
  exact ⟨.run hfollows.2.1 hfollows.1, hfollows.2.2.2⟩

theorem follows_of_circular (hall : c.AllFollowed) (h : c.Circular) :
    ∃ node, Relation.TransGen c.Follows node node := by
  obtain ⟨node, hcycle⟩ := h
  refine ⟨node, Relation.TransGen.mono ?_ _ _ hcycle⟩
  intro depNode node ⟨hwanted, dep, hdeclares⟩
  exact follows_of_declares hall (direct_of_wanted hall hwanted) hdeclares

theorem complete_iff (hrefs : c.ReferencesResolve) (htable : TableOf c table) :
    c.Complete (assemble c.tasks c.workspace c.workflow.run table) ↔ c.AllFollowed := by
  constructor
  · intro hcomplete node dep depNode hdirect hdeclares
    -- the edge into each place of the node is one that the builder follows
    have hedge : ∀ i, table.nodes[i]? = some node → table.index node = some i ∧
        node.taskName ∈ c.workflow.run ∧ c.PackagesKnown node depNode := by
      intro i hi
      obtain ⟨j, hj, he⟩ := hcomplete.edges i node hi dep depNode hdeclares
      obtain ⟨node', dep', depNode', hfrom, hto, hrun, _, hknown, _⟩ :=
        (mem_edges hrefs htable).mp he
      have hnode : node' = node := by
        have hplace := table.indexed _ _ hto
        rw [hi] at hplace
        exact (Option.some.inj hplace).symm
      have hdepNode : depNode' = depNode := by
        have hplace := table.indexed _ _ hfrom
        change table.nodes[j]? = some depNode at hj
        rw [hj] at hplace
        exact (Option.some.inj hplace).symm
      subst hnode hdepNode
      exact ⟨hto, hrun, hknown⟩
    obtain ⟨i, hi⟩ := mem_iff_getElem?.mp ((htable.mem node).mpr hdirect)
    obtain ⟨_, hrun, hknown⟩ := hedge i hi
    refine ⟨?_, hknown⟩
    have hpos := count_pos_iff.mpr hrun
    by_contra hcount
    have htwo : 2 ≤ table.nodes.count node := by
      rw [htable.count node hrun hdirect.1]
      omega
    obtain ⟨a, b, hlt, ha, hb⟩ := duplicate_iff_exists_distinct_get.mp
      (duplicate_iff_two_le_count.mpr htwo)
    have hplaceA := (hedge a (List.getElem?_eq_some_iff.mpr ⟨a.isLt, ha.symm⟩)).1
    have hplaceB := (hedge b (List.getElem?_eq_some_iff.mpr ⟨b.isLt, hb.symm⟩)).1
    rw [hplaceA] at hplaceB
    have heq : a = b := Fin.ext (Option.some.inj hplaceB)
    exact absurd hlt (by rw [heq]; exact lt_irrefl b)
  · intro hall
    refine ⟨?_, ?_⟩
    · intro node hwanted
      exact (htable.mem node).mpr (direct_of_wanted hall hwanted)
    · intro i node hi dep depNode hdeclares
      have hdirect := htable.direct hi
      have hfollows := follows_of_declares hall hdirect hdeclares
      obtain ⟨k, hk⟩ := htable.index hdirect
      obtain ⟨j, hj⟩ := htable.index (follows_direct hfollows).1
      have hcount : table.nodes.count node = 1 := by
        rw [htable.count node hfollows.2.1 hdirect.1]
        exact (hall _ _ _ hdirect hdeclares).1
      have hplace : k = i := place_unique hcount (table.indexed _ _ hk) hi
      subst hplace
      exact ⟨j, table.indexed _ _ hj, (mem_edges hrefs htable).mpr
        ⟨node, dep, depNode, hj, hk, hfollows.2.1, hdeclares, hfollows.2.2.1, rfl⟩⟩

/-! ### Building -/

theorem build_ok (hrefs : c.ReferencesResolve)
    (hnodes : createNodes c.workflow c.tasks c.activePackages = .ok table) :
    c.build = (assemble c.tasks c.workspace c.workflow.run table).topologicalOrder.map
      (fun _ => assemble c.tasks c.workspace c.workflow.run table) := by
  have hchecks : checkDeps c.tasks c.workflow.run = .ok () := by
    rw [checkDeps_ok_iff]
    intro taskName hrun taskDef hdef
    obtain ⟨taskDef', hdef', hdeps⟩ := hrefs taskName hrun
    rw [hdef] at hdef'
    cases hdef'
    exact hdeps
  show TaskGraph.build c.workflow c.tasks c.workspace c.filterPackages = _
  simp only [TaskGraph.build]
  rw [show c.filterPackages.getD c.workspace.packageNames = c.activePackages from rfl, hnodes,
    ok_bind, hchecks, ok_bind]
  cases (assemble c.tasks c.workspace c.workflow.run table).topologicalOrder with
  | error e => rfl
  | ok order => rfl

theorem references_of_build {graph : TaskGraph} (h : c.build = .ok graph) :
    c.ReferencesResolve := by
  simp only [CiRun.build, TaskGraph.build] at h
  obtain ⟨table, hnodes, h⟩ := bind_eq_ok h
  obtain ⟨_, hchecks, _⟩ := bind_eq_ok h
  intro taskName hrun
  cases hdef : c.tasks.get? taskName with
  | none =>
    obtain ⟨e, he⟩ := createRunNodes_error c.activePackages hrun hdef .empty
    obtain ⟨first, hok, _⟩ := map_eq_ok hnodes
    rw [show c.filterPackages.getD c.workspace.packageNames = c.activePackages from rfl, he]
      at hok
    cases hok
  | some taskDef => exact ⟨taskDef, rfl, checkDeps_ok_iff.mp hchecks taskName hrun taskDef hdef⟩

/-- Building gives the complete graph, or fails for a cycle or a name that
does not resolve, exactly when every dependency is followed. -/
theorem builds_complete_iff (c : CiRun) : c.BuildsCompleteGraph ↔ c.Followed := by
  by_cases hrefs : c.ReferencesResolve
  · obtain ⟨table, hnodes, htable⟩ := createNodes_ok hrefs
    have hbuild := build_ok hrefs hnodes
    have hcyclic := cyclic_iff hrefs htable
    have horder := topologicalOrder_ok_iff (assemble c.tasks c.workspace c.workflow.run table)
    rw [hcyclic] at horder
    unfold CiRun.BuildsCompleteGraph CiRun.Followed
    rw [hbuild]
    cases hsort : (assemble c.tasks c.workspace c.workflow.run table).topologicalOrder with
    | error e =>
      have hcycle : ∃ node, Relation.TransGen c.Follows node node := by
        by_contra hnone
        obtain ⟨order, hok⟩ := horder.mpr hnone
        rw [hsort] at hok
        cases hok
      constructor
      · intro _ _
        exact Or.inl hcycle
      · intro _
        exact Or.inl (circular_of_follows hcycle)
    | ok order =>
      have hacyclic := horder.mp ⟨order, hsort⟩
      show c.Complete _ ∧ ¬ c.Circular ↔ _
      rw [complete_iff hrefs htable]
      constructor
      · intro h _
        exact Or.inr h.1
      · intro h
        rcases h hrefs with hcycle | hall
        · exact absurd hcycle hacyclic
        · exact ⟨hall, fun hcircular => hacyclic (follows_of_circular hall hcircular)⟩
  · refine iff_of_true ?_ (fun h => absurd h hrefs)
    unfold CiRun.BuildsCompleteGraph
    cases hbuild : c.build with
    | error e => exact Or.inr hrefs
    | ok graph => exact absurd (references_of_build hbuild) hrefs

/-- A workflow that runs `test`, which depends on `build`, which depends on
`codegen`, at the root. -/
def transitiveRun : CiRun where
  workflow := ⟨["test"]⟩
  tasks := .ofList
    [("build", .command "tsc" ⟨[.simple "codegen"], none, .root⟩),
      ("codegen", .command "gen" ⟨[], none, .root⟩),
      ("test", .command "bun test" ⟨[.simple "build"], none, .root⟩)]
  workspace := ⟨.empty⟩
  filterPackages := none

theorem transitive_dependency_missing : ¬ transitiveRun.BuildsCompleteGraph := by
  intro h
  have hbuild : ∃ graph, transitiveRun.build = .ok graph ∧
      (⟨"codegen", none⟩ : TaskNode) ∉ graph.nodes := ⟨_, rfl, by decide⟩
  obtain ⟨graph, hok, hout⟩ := hbuild
  rw [CiRun.BuildsCompleteGraph, hok] at h
  have hscope : ∀ name ∈ ["test", "build", "codegen"], transitiveRun.InScope ⟨name, none⟩ := by
    intro name hname
    simp only [mem_cons, not_mem_nil, or_false] at hname
    rcases hname with rfl | rfl | rfl <;> exact ⟨_, rfl, rfl⟩
  have hdep : ∀ name depName base command,
      transitiveRun.tasks.get? name = some (.command command ⟨[.simple depName], none, base⟩) →
      (parseDepName (.simple depName)) = (depName, false) →
      depName ∈ ["test", "build", "codegen"] →
      transitiveRun.Declares ⟨name, none⟩ (.simple depName) ⟨depName, none⟩ := by
    intro name depName base command hdef hparse hmem
    refine ⟨⟨_, hdef, mem_singleton.mpr rfl⟩, ?_, hscope depName hmem⟩
    rw [CiRun.StandsFor, hparse]
    exact ⟨rfl, Or.inl rfl⟩
  have hbuilds := hdep "test" "build" .root "bun test" rfl rfl (by decide)
  have hgens := hdep "build" "codegen" .root "tsc" rfl rfl (by decide)
  have hwanted : transitiveRun.Wanted ⟨"codegen", none⟩ :=
    .dep (.dep (.run (by decide) (hscope "test" (by decide))) hbuilds) hgens
  exact hout (h.1.wanted _ hwanted)

end Vertz.Proofs
