import Vertz.Lib.Frontier
import Vertz.Lib.Record

/-!
# `Vertz.Native.Watcher.ModuleGraph`: the import graph of the dev server

`src/native/vtz/src/watcher/module_graph.rs`. Each node keeps the modules
it imports and the modules that import it. A hash set is a list that an
element is inserted into once; the order of the lists is the order the
source iterates in, and no result depends on it.
-/

namespace Vertz.Native.Watcher

open Vertz.Lib List

/-- `HashSet::remove`. -/
def removeFrom (path : String) (paths : List String) : List String :=
  paths.filter fun p => decide (p ≠ path)

@[simp] theorem mem_removeFrom {path x : String} {paths : List String} :
    x ∈ removeFrom path paths ↔ x ∈ paths ∧ x ≠ path := by
  simp [removeFrom]

theorem mem_foldl_insert (deps acc : List String) (x : String) :
    x ∈ deps.foldl (fun ds dep => ds.insert dep) acc ↔ x ∈ acc ∨ x ∈ deps := by
  induction deps generalizing acc with
  | nil => simp
  | cons dep rest ih =>
    rw [foldl_cons, ih, mem_insert_iff, mem_cons]
    tauto

/-- A node in the module dependency graph. -/
structure ModuleNode where
  /-- Modules that this module imports. -/
  dependencies : List String := []
  /-- Modules that import this module. -/
  dependents : List String := []
  deriving DecidableEq, Repr

namespace ModuleNode

/-- `dependents.remove(path)`. -/
def dropDependent (path : String) (node : ModuleNode) : ModuleNode :=
  { node with dependents := removeFrom path node.dependents }

/-- `dependencies.remove(path)`. -/
def dropDependency (path : String) (node : ModuleNode) : ModuleNode :=
  { node with dependencies := removeFrom path node.dependencies }

/-- `dependents.insert(path)`. -/
def addDependent (path : String) (node : ModuleNode) : ModuleNode :=
  { node with dependents := node.dependents.insert path }

/-- Clear the dependencies and insert the new ones. -/
def setDependencies (paths : List String) (node : ModuleNode) : ModuleNode :=
  { node with dependencies := paths.foldl (fun deps dep => deps.insert dep) [] }

@[simp] theorem dropDependent_dependencies (path : String) (node : ModuleNode) :
    (node.dropDependent path).dependencies = node.dependencies := rfl

@[simp] theorem mem_dropDependent {path x : String} {node : ModuleNode} :
    x ∈ (node.dropDependent path).dependents ↔ x ∈ node.dependents ∧ x ≠ path :=
  mem_removeFrom

@[simp] theorem mem_dropDependency {path x : String} {node : ModuleNode} :
    x ∈ (node.dropDependency path).dependencies ↔ x ∈ node.dependencies ∧ x ≠ path :=
  mem_removeFrom

@[simp] theorem addDependent_dependencies (path : String) (node : ModuleNode) :
    (node.addDependent path).dependencies = node.dependencies := rfl

@[simp] theorem mem_addDependent {path x : String} {node : ModuleNode} :
    x ∈ (node.addDependent path).dependents ↔ x = path ∨ x ∈ node.dependents :=
  mem_insert_iff

@[simp] theorem mem_setDependencies {paths : List String} {x : String} {node : ModuleNode} :
    x ∈ (node.setDependencies paths).dependencies ↔ x ∈ paths := by
  simp [setDependencies, mem_foldl_insert]

end ModuleNode

structure ModuleGraph where
  nodes : Record ModuleNode

namespace ModuleGraph

def new : ModuleGraph := ⟨Record.empty⟩

/-- `nodes.get_mut(path)`, and an update of the node if there is one. -/
def getMut (graph : ModuleGraph) (path : String) (f : ModuleNode → ModuleNode) : ModuleGraph :=
  ⟨graph.nodes.modify path f⟩

/-- `nodes.entry(path).or_default()`, and an update of the node. -/
def orDefault (graph : ModuleGraph) (path : String) (f : ModuleNode → ModuleNode) : ModuleGraph :=
  ⟨graph.nodes.insert path (f ((graph.nodes.get? path).getD {}))⟩

/-- Update the graph for a module after (re)compilation. -/
def updateModule (graph : ModuleGraph) (modulePath : String) (newDependencies : List String) :
    ModuleGraph :=
  -- remove the old dependency edges
  let detached := match graph.nodes.get? modulePath with
    | none => graph
    | some oldNode =>
      oldNode.dependencies.foldl
        (fun g oldDep => g.getMut oldDep (ModuleNode.dropDependent modulePath)) graph
  let own := detached.orDefault modulePath (ModuleNode.setDependencies newDependencies)
  -- add the reverse edges
  newDependencies.foldl (fun g dep => g.orDefault dep (ModuleNode.addDependent modulePath)) own

/-- Remove a module from the graph entirely. -/
def removeModule (graph : ModuleGraph) (modulePath : String) : ModuleGraph :=
  match graph.nodes.get? modulePath with
  | none => graph
  | some node =>
    let removed : ModuleGraph := ⟨graph.nodes.erase modulePath⟩
    let detached := node.dependencies.foldl
      (fun g dep => g.getMut dep (ModuleNode.dropDependent modulePath)) removed
    node.dependents.foldl
      (fun g dependent => g.getMut dependent (ModuleNode.dropDependency modulePath)) detached

/-- The direct dependents of a module. -/
def getDependents (graph : ModuleGraph) (modulePath : String) : List String :=
  ((graph.nodes.get? modulePath).map ModuleNode.dependents).getD []

/-- The direct dependencies of a module. -/
def getDependencies (graph : ModuleGraph) (modulePath : String) : List String :=
  ((graph.nodes.get? modulePath).map ModuleNode.dependencies).getD []

/-- All transitive dependents of a module, the module itself included.
The queue takes every node once, so one unit of fuel for each dependent
there is and one for the start are enough. -/
def getTransitiveDependents (graph : ModuleGraph) (modulePath : String) : List String :=
  let space := graph.nodes.entries.flatMap fun node => node.2.dependents
  Frontier.explore graph.getDependents (space.length + 1)
    { visited := [modulePath], queue := [modulePath] }

def hasModule (graph : ModuleGraph) (modulePath : String) : Bool :=
  (graph.nodes.get? modulePath).isSome

/-! ### Updating several nodes -/

variable {graph : ModuleGraph} {f : ModuleNode → ModuleNode}

/-- An update that is repeated on a list of nodes is made once on each. -/
theorem get?_foldl_getMut (hf : ∀ node, f (f node) = f node) (paths : List String) (x : String) :
    (paths.foldl (fun g path => g.getMut path f) graph).nodes.get? x =
      if x ∈ paths then (graph.nodes.get? x).map f else graph.nodes.get? x := by
  induction paths generalizing graph with
  | nil => rfl
  | cons path rest ih =>
    rw [foldl_cons, ih, getMut, Record.get?_modify]
    by_cases hx : path = x
    · subst hx
      rw [if_pos rfl, if_pos mem_cons_self, Option.map_map]
      have hff : f ∘ f = f := funext hf
      rw [hff, ite_self]
    · simp only [if_neg hx, mem_cons, show ¬ x = path from fun h => hx h.symm, false_or]

/-- A side of the edges that the update leaves alone. -/
theorem map_foldl_getMut {side : ModuleNode → List String} (hf : ∀ node, f (f node) = f node)
    (hside : ∀ node, side (f node) = side node) (paths : List String) (x : String) :
    ((paths.foldl (fun g path => g.getMut path f) graph).nodes.get? x).map side =
      (graph.nodes.get? x).map side := by
  rw [get?_foldl_getMut hf]
  by_cases h : x ∈ paths
  · rw [if_pos h, Option.map_map]
    exact congrArg (Option.map · (graph.nodes.get? x)) (funext hside)
  · rw [if_neg h]

theorem get?_foldl_orDefault (hf : ∀ node, f (f node) = f node) (paths : List String)
    (x : String) :
    (paths.foldl (fun g path => g.orDefault path f) graph).nodes.get? x =
      if x ∈ paths then some (f ((graph.nodes.get? x).getD {})) else graph.nodes.get? x := by
  induction paths generalizing graph with
  | nil => rfl
  | cons path rest ih =>
    rw [foldl_cons, ih, orDefault, Record.get?_insert]
    by_cases hx : path = x
    · subst hx
      rw [if_pos rfl, if_pos mem_cons_self, Option.getD_some, hf, ite_self]
    · simp only [if_neg hx, mem_cons, show ¬ x = path from fun h => hx h.symm, false_or]

theorem dropDependent_twice (path : String) (node : ModuleNode) :
    (node.dropDependent path).dropDependent path = node.dropDependent path := by
  simp [ModuleNode.dropDependent, removeFrom, filter_filter]

theorem dropDependency_twice (path : String) (node : ModuleNode) :
    (node.dropDependency path).dropDependency path = node.dropDependency path := by
  simp [ModuleNode.dropDependency, removeFrom, filter_filter]

theorem addDependent_twice (path : String) (node : ModuleNode) :
    (node.addDependent path).addDependent path = node.addDependent path := by
  simp only [ModuleNode.addDependent]
  rw [insert_of_mem mem_insert_self]

/-! ### The edges after an operation -/

/-- Each edge is recorded on both sides. -/
def Symmetric (graph : ModuleGraph) : Prop :=
  ∀ a b, b ∈ graph.getDependencies a ↔ a ∈ graph.getDependents b

theorem getDependencies_of_get? {path : String} {node : ModuleNode}
    (h : graph.nodes.get? path = some node) : graph.getDependencies path = node.dependencies := by
  rw [getDependencies, h]
  rfl

theorem getDependents_of_get? {path : String} {node : ModuleNode}
    (h : graph.nodes.get? path = some node) : graph.getDependents path = node.dependents := by
  rw [getDependents, h]
  rfl

/-- The graph without the module among the dependents of what it imports. -/
def detach (graph : ModuleGraph) (modulePath : String) (deps : List String) : ModuleGraph :=
  deps.foldl (fun g dep => g.getMut dep (ModuleNode.dropDependent modulePath)) graph

theorem get?_detach (modulePath : String) (deps : List String) (x : String) :
    (graph.detach modulePath deps).nodes.get? x =
      if x ∈ deps then (graph.nodes.get? x).map (ModuleNode.dropDependent modulePath)
      else graph.nodes.get? x :=
  get?_foldl_getMut (dropDependent_twice modulePath) deps x

theorem getDependencies_detach (graph : ModuleGraph) (modulePath : String) (deps : List String) (x : String) :
    (graph.detach modulePath deps).getDependencies x = graph.getDependencies x :=
  congrArg (Option.getD · []) (map_foldl_getMut (f := ModuleNode.dropDependent modulePath)
    (dropDependent_twice modulePath) (fun _ => rfl) deps x)

theorem mem_getDependents_detach {modulePath : String} {deps : List String} {x y : String} :
    y ∈ (graph.detach modulePath deps).getDependents x ↔
      y ∈ graph.getDependents x ∧ ¬ (x ∈ deps ∧ y = modulePath) := by
  rw [getDependents, getDependents, get?_detach]
  by_cases h : x ∈ deps
  · rw [if_pos h]
    cases graph.nodes.get? x with
    | none => simp
    | some node => simp [h]
  · simp [h]

theorem updateModule_eq (modulePath : String) (newDependencies : List String) :
    graph.updateModule modulePath newDependencies =
      newDependencies.foldl (fun g dep => g.orDefault dep (ModuleNode.addDependent modulePath))
        ((graph.detach modulePath (graph.getDependencies modulePath)).orDefault modulePath
          (ModuleNode.setDependencies newDependencies)) := by
  rw [updateModule, getDependencies]
  cases graph.nodes.get? modulePath <;> rfl

theorem mem_getDependencies_updateModule (modulePath : String) (newDependencies : List String)
    (x y : String) :
    y ∈ (graph.updateModule modulePath newDependencies).getDependencies x ↔
      if x = modulePath then y ∈ newDependencies else y ∈ graph.getDependencies x := by
  rw [updateModule_eq, getDependencies, get?_foldl_orDefault (addDependent_twice modulePath)]
  rw [orDefault, Record.get?_insert]
  by_cases hx : modulePath = x
  · subst hx
    by_cases hself : modulePath ∈ newDependencies <;> simp [hself]
  · have hne : ¬ x = modulePath := fun h => hx h.symm
    have hsame := congrArg (y ∈ ·)
      (getDependencies_detach graph modulePath (graph.getDependencies modulePath) x)
    rw [getDependencies] at hsame
    by_cases hin : x ∈ newDependencies
    · simp only [if_neg hx, if_neg hne, if_pos hin]
      rw [← hsame]
      cases (graph.detach modulePath (graph.getDependencies modulePath)).nodes.get? x <;> simp
    · simp only [if_neg hx, if_neg hne, if_neg hin]
      rw [← hsame]

theorem mem_getDependents_updateModule (hsym : graph.Symmetric) (modulePath : String)
    (newDependencies : List String) (x y : String) :
    y ∈ (graph.updateModule modulePath newDependencies).getDependents x ↔
      if y = modulePath then x ∈ newDependencies else y ∈ graph.getDependents x := by
  have hdetached : y ∈ (graph.detach modulePath (graph.getDependencies modulePath)).getDependents x
      ↔ y ∈ graph.getDependents x ∧ y ≠ modulePath := by
    rw [mem_getDependents_detach]
    constructor
    · rintro ⟨hy, hnot⟩
      refine ⟨hy, fun heq => hnot ⟨?_, heq⟩⟩
      exact (hsym modulePath x).mpr (heq ▸ hy)
    · rintro ⟨hy, hne⟩
      exact ⟨hy, fun h => hne h.2⟩
  -- updating the imports of the module itself changes no dependents
  have hown : ((((graph.detach modulePath (graph.getDependencies modulePath)).orDefault modulePath
      (ModuleNode.setDependencies newDependencies)).nodes.get? x).getD {}).dependents =
      (graph.detach modulePath (graph.getDependencies modulePath)).getDependents x := by
    rw [orDefault, Record.get?_insert, getDependents]
    by_cases hx : modulePath = x
    · subst hx
      rw [if_pos rfl]
      cases (graph.detach modulePath (graph.getDependencies modulePath)).nodes.get? modulePath <;>
        rfl
    · rw [if_neg hx]
      cases (graph.detach modulePath (graph.getDependencies modulePath)).nodes.get? x <;> rfl
  rw [updateModule_eq, getDependents, get?_foldl_orDefault (addDependent_twice modulePath)]
  by_cases hin : x ∈ newDependencies
  · simp only [if_pos hin, Option.map_some, Option.getD_some, ModuleNode.mem_addDependent, hown,
      hdetached]
    by_cases hy : y = modulePath <;> simp [hy, hin]
  · rw [if_neg hin]
    have hread : ∀ o : Option ModuleNode,
        (o.map ModuleNode.dependents).getD [] = (o.getD {}).dependents := by
      intro o
      cases o <;> rfl
    rw [hread, hown, hdetached]
    by_cases hy : y = modulePath <;> simp [hy, hin]

theorem removeModule_eq {modulePath : String} {node : ModuleNode}
    (h : graph.nodes.get? modulePath = some node) :
    graph.removeModule modulePath =
      node.dependents.foldl
        (fun g dependent => g.getMut dependent (ModuleNode.dropDependency modulePath))
        (detach ⟨graph.nodes.erase modulePath⟩ modulePath node.dependencies) := by
  rw [removeModule, h]
  rfl

theorem getDependents_erase (modulePath x : String) :
    getDependents ⟨graph.nodes.erase modulePath⟩ x =
      if x = modulePath then [] else graph.getDependents x := by
  rw [getDependents, Record.get?_erase]
  by_cases h : x = modulePath <;> simp [h, getDependents]

theorem getDependencies_erase (modulePath x : String) :
    getDependencies ⟨graph.nodes.erase modulePath⟩ x =
      if x = modulePath then [] else graph.getDependencies x := by
  rw [getDependencies, Record.get?_erase]
  by_cases h : x = modulePath <;> simp [h, getDependencies]

theorem mem_getDependents_removeModule (hsym : graph.Symmetric) (modulePath x y : String) :
    y ∈ (graph.removeModule modulePath).getDependents x ↔
      x ≠ modulePath ∧ y ≠ modulePath ∧ y ∈ graph.getDependents x := by
  cases hnode : graph.nodes.get? modulePath with
  | none =>
    have hsame : graph.removeModule modulePath = graph := by
      rw [removeModule, hnode]
    rw [hsame]
    refine ⟨fun hy => ⟨?_, ?_, hy⟩, fun h => h.2.2⟩
    · rintro rfl
      rw [getDependents, hnode] at hy
      cases hy
    · rintro rfl
      have hdep := (hsym y x).mpr hy
      rw [getDependencies, hnode] at hdep
      cases hdep
  | some node =>
    rw [removeModule_eq hnode, getDependents, map_foldl_getMut
      (f := ModuleNode.dropDependency modulePath) (dropDependency_twice modulePath) (fun _ => rfl)]
    show y ∈ (detach _ modulePath node.dependencies).getDependents x ↔ _
    rw [mem_getDependents_detach, getDependents_erase]
    by_cases hx : x = modulePath
    · simp [hx]
    · rw [if_neg hx, ← getDependencies_of_get? hnode]
      constructor
      · rintro ⟨hy, hnot⟩
        exact ⟨hx, fun heq => hnot ⟨(hsym modulePath x).mpr (heq ▸ hy), heq⟩, hy⟩
      · rintro ⟨-, hne, hy⟩
        exact ⟨hy, fun h => hne h.2⟩

theorem mem_getDependencies_removeModule (hsym : graph.Symmetric) (modulePath x y : String) :
    y ∈ (graph.removeModule modulePath).getDependencies x ↔
      x ≠ modulePath ∧ y ≠ modulePath ∧ y ∈ graph.getDependencies x := by
  cases hnode : graph.nodes.get? modulePath with
  | none =>
    have hsame : graph.removeModule modulePath = graph := by
      rw [removeModule, hnode]
    rw [hsame]
    refine ⟨fun hy => ⟨?_, ?_, hy⟩, fun h => h.2.2⟩
    · rintro rfl
      rw [getDependencies, hnode] at hy
      cases hy
    · rintro rfl
      have hdep := (hsym x y).mp hy
      rw [getDependents, hnode] at hdep
      cases hdep
  | some node =>
    rw [removeModule_eq hnode, getDependencies, get?_foldl_getMut
      (dropDependency_twice modulePath)]
    have herased := getDependencies_detach ⟨graph.nodes.erase modulePath⟩ modulePath
      node.dependencies x
    rw [getDependencies, getDependencies_erase] at herased
    by_cases hin : x ∈ node.dependents
    · rw [if_pos hin]
      by_cases hx : x = modulePath
      · rw [if_pos hx] at herased
        cases hget : (detach ⟨graph.nodes.erase modulePath⟩ modulePath
            node.dependencies).nodes.get? x with
        | none => simp [hx]
        | some n =>
          rw [hget] at herased
          have hnil : n.dependencies = [] := herased
          simp [hx, hnil]
      · rw [if_neg hx] at herased
        rw [← herased]
        cases (detach ⟨graph.nodes.erase modulePath⟩ modulePath
            node.dependencies).nodes.get? x with
        | none => simp
        | some n => simp [hx, and_comm]
    · rw [if_neg hin, herased]
      by_cases hx : x = modulePath
      · simp [hx]
      · rw [if_neg hx]
        refine ⟨fun hy => ⟨hx, ?_, hy⟩, fun h => h.2.2⟩
        rintro rfl
        rw [hsym, getDependents_of_get? hnode] at hy
        exact hin hy

/-- Both operations keep the two sides of the edges together. -/
theorem Symmetric.updateModule (hsym : graph.Symmetric) (modulePath : String)
    (newDependencies : List String) : (graph.updateModule modulePath newDependencies).Symmetric := by
  intro a b
  rw [mem_getDependencies_updateModule, mem_getDependents_updateModule hsym]
  by_cases h : a = modulePath
  · rw [if_pos h, if_pos h]
  · rw [if_neg h, if_neg h]
    exact hsym a b

theorem Symmetric.removeModule (hsym : graph.Symmetric) (modulePath : String) :
    (graph.removeModule modulePath).Symmetric := by
  intro a b
  rw [mem_getDependencies_removeModule hsym, mem_getDependents_removeModule hsym, hsym]
  tauto

/-- The traversal visits exactly what imports the module along the edges. -/
theorem mem_getTransitiveDependents (modulePath x : String) :
    x ∈ graph.getTransitiveDependents modulePath ↔
      Relation.ReflTransGen (fun a b => b ∈ graph.getDependents a) modulePath x := by
  apply Frontier.mem_explore_iff
  intro a b hb
  cases hnode : graph.nodes.get? a with
  | none =>
    rw [getDependents, hnode] at hb
    cases hb
  | some node =>
    rw [getDependents_of_get? hnode] at hb
    exact mem_flatMap.mpr ⟨(a, node), (Record.mem_entries_iff _).mpr hnode, hb⟩

end ModuleGraph

end Vertz.Native.Watcher
