import Vertz.Native.Watcher.ModuleGraph
import Mathlib.Data.List.Induction

/-!
# `Vertz.Proofs.ModuleRuns`: histories of a module graph

A history is the updates and removals of a module graph, first to last.
`LastImports` is what the last update of a module recorded, while the
module was not removed since. `StandingImports` are those of them whose
module was not removed since either: removing a module takes it out of
the imports of its importers, until they are updated again.
-/

namespace Vertz.Spec

open Vertz.Native.Watcher

inductive ModuleOp where
  | update (path : String) (imports : List String)
  | remove (path : String)

def ModuleOp.path : ModuleOp → String
  | update path _ => path
  | remove path => path

def ModuleOp.apply (graph : ModuleGraph) : ModuleOp → ModuleGraph
  | update path imports => graph.updateModule path imports
  | remove path => graph.removeModule path

/-- The graph after a history. -/
def moduleRun (history : List ModuleOp) : ModuleGraph :=
  history.foldl ModuleOp.apply ModuleGraph.new

/-- The last operation on `a` is an update that recorded `b`. -/
def LastImports (history : List ModuleOp) (a b : String) : Prop :=
  ∃ before imports after, history = before ++ .update a imports :: after ∧ b ∈ imports ∧
    ∀ op ∈ after, op.path ≠ a

/-- The last operation on `a` is an update that recorded `b`, and `b` was
not removed since. -/
def StandingImports (history : List ModuleOp) (a b : String) : Prop :=
  ∃ before imports after, history = before ++ .update a imports :: after ∧ b ∈ imports ∧
    ∀ op ∈ after, op.path ≠ a ∧ op ≠ .remove b

end Vertz.Spec

/-!
## The graph of a history

* `standingImports_update`, `standingImports_remove`: how one operation
  changes the standing imports; `ModuleGraph` says the same of its edges.
* `moduleRun_edges`: after any history the edges are the standing imports,
  recorded on both sides.
* `moduleRun_dependents`: the transitive dependents of a module are those
  its standing imports lead to it from.
* `readded_module_lost_importers`: a module that is removed and added
  again has lost its importers, although their last imports name it.
-/

namespace Vertz.Proofs.ModuleRuns

open Vertz.Native.Watcher Vertz.Spec List

variable {history : List ModuleOp}

/-! ### One operation more -/

/-- The last operation is the update, or the update lies before it. -/
theorem standingImports_snoc (op : ModuleOp) (a b : String) :
    StandingImports (history ++ [op]) a b ↔
      (∃ imports, op = .update a imports ∧ b ∈ imports) ∨
        (op.path ≠ a ∧ op ≠ .remove b ∧ StandingImports history a b) := by
  constructor
  · rintro ⟨before, imports, after, hsplit, hb, hafter⟩
    rcases eq_nil_or_concat after with rfl | ⟨init, last, rfl⟩
    · obtain ⟨-, hlast⟩ := append_inj' hsplit rfl
      exact Or.inl ⟨imports, (List.cons.inj hlast).1, hb⟩
    · rw [concat_eq_append] at hsplit hafter
      have hassoc : history ++ [op] = (before ++ .update a imports :: init) ++ [last] := by
        rw [hsplit, append_assoc, cons_append]
      obtain ⟨hhistory, hlast⟩ := append_inj' hassoc rfl
      obtain rfl := (List.cons.inj hlast).1
      have hop := hafter op (mem_append_right _ (mem_singleton_self op))
      refine Or.inr ⟨hop.1, hop.2, before, imports, init, hhistory, hb, fun o ho => ?_⟩
      exact hafter o (mem_append_left _ ho)
  · rintro (⟨imports, rfl, hb⟩ | ⟨hpath, hremove, before, imports, after, rfl, hb, hafter⟩)
    · exact ⟨history, imports, [], rfl, hb, fun _ h => nomatch h⟩
    · refine ⟨before, imports, after ++ [op], by simp, hb, fun o ho => ?_⟩
      rcases mem_append.mp ho with ho | ho
      · exact hafter o ho
      · rw [mem_singleton.mp ho]
        exact ⟨hpath, hremove⟩

theorem standingImports_update (path : String) (imports : List String) (a b : String) :
    StandingImports (history ++ [.update path imports]) a b ↔
      if a = path then b ∈ imports else StandingImports history a b := by
  rw [standingImports_snoc]
  by_cases h : a = path
  · subst h
    simp [ModuleOp.path]
  · have hne : path ≠ a := fun heq => h heq.symm
    simp [ModuleOp.path, h, hne]

theorem standingImports_remove (path a b : String) :
    StandingImports (history ++ [.remove path]) a b ↔
      a ≠ path ∧ b ≠ path ∧ StandingImports history a b := by
  rw [standingImports_snoc]
  simp only [reduceCtorEq, false_and, exists_false, false_or, ModuleOp.path, ne_eq,
    ModuleOp.remove.injEq, eq_comm]

/-! ### Histories -/

theorem moduleRun_snoc (op : ModuleOp) :
    moduleRun (history ++ [op]) = op.apply (moduleRun history) := by
  rw [moduleRun, foldl_append]
  rfl

/-- The edges of the graph are the standing imports, on both sides. -/
theorem moduleRun_edges (history : List ModuleOp) :
    (moduleRun history).Symmetric ∧
      ∀ a b, a ∈ (moduleRun history).getDependents b ↔ StandingImports history a b := by
  induction history using List.reverseRecOn with
  | nil =>
    have hnone : ∀ a b, a ∉ (moduleRun []).getDependents b := fun a b h => nomatch h
    refine ⟨fun a b => iff_of_false (fun h => nomatch h) (hnone a b), fun a b =>
      iff_of_false (hnone a b) ?_⟩
    rintro ⟨before, imports, after, hsplit, -⟩
    exact append_ne_nil_of_right_ne_nil before (cons_ne_nil _ _) hsplit.symm
  | append_singleton history op ih =>
    obtain ⟨hsym, hedges⟩ := ih
    rw [moduleRun_snoc]
    cases op with
    | update path imports =>
      refine ⟨hsym.updateModule path imports, fun a b => ?_⟩
      show a ∈ ((moduleRun history).updateModule path imports).getDependents b ↔ _
      rw [ModuleGraph.mem_getDependents_updateModule hsym, standingImports_update, hedges]
    | remove path =>
      refine ⟨hsym.removeModule path, fun a b => ?_⟩
      show a ∈ ((moduleRun history).removeModule path).getDependents b ↔ _
      rw [ModuleGraph.mem_getDependents_removeModule hsym, standingImports_remove, hedges]
      tauto

/-- After every history the two sides of the edges agree and lead to
modules of the graph, and the transitive dependents of a module are the
module and those whose standing imports lead to it. -/
theorem moduleRun_dependents (history : List ModuleOp) :
    (∀ a b, (b ∈ (moduleRun history).getDependencies a ↔ a ∈ (moduleRun history).getDependents b) ∧
      (b ∈ (moduleRun history).getDependencies a →
        (moduleRun history).hasModule a = true ∧ (moduleRun history).hasModule b = true)) ∧
    ∀ m x, x ∈ (moduleRun history).getTransitiveDependents m ↔
      Relation.ReflTransGen (StandingImports history) x m := by
  obtain ⟨hsym, hedges⟩ := moduleRun_edges history
  refine ⟨fun a b => ⟨hsym a b, fun hdep => ⟨?_, ?_⟩⟩, fun m x => ?_⟩
  · cases hnode : (moduleRun history).nodes.get? a with
    | none =>
      rw [ModuleGraph.getDependencies, hnode] at hdep
      cases hdep
    | some node =>
      rw [ModuleGraph.hasModule, hnode]
      rfl
  · have hback := (hsym a b).mp hdep
    cases hnode : (moduleRun history).nodes.get? b with
    | none =>
      rw [ModuleGraph.getDependents, hnode] at hback
      cases hback
    | some node =>
      rw [ModuleGraph.hasModule, hnode]
      rfl
  · -- the traversal follows the edges backwards, from the module to its importers
    rw [ModuleGraph.mem_getTransitiveDependents, ← Relation.reflTransGen_swap]
    have hsame : (Function.swap fun a b => b ∈ (moduleRun history).getDependents a) =
        StandingImports history := by
      funext a b
      exact propext (hedges a b)
    rw [hsame]

/-- The button is removed and added again; the application that imports it
was never updated or removed. -/
def readded : List ModuleOp :=
  [.update "app.tsx" ["button.tsx"], .remove "button.tsx", .update "button.tsx" []]

/-- The importer of a module that was added again is not among its
dependents. -/
theorem readded_module_lost_importers :
    ¬ ∀ history m x, x ∈ (moduleRun history).getTransitiveDependents m ↔
      Relation.ReflTransGen (LastImports history) x m := by
  intro h
  have hlast : LastImports readded "app.tsx" "button.tsx" :=
    ⟨[], ["button.tsx"], [.remove "button.tsx", .update "button.tsx" []], rfl, by decide, by
      decide⟩
  have hmem := (h readded "button.tsx" "app.tsx").mpr (.single hlast)
  exact absurd hmem (by decide)

end Vertz.Proofs.ModuleRuns
