import Vertz.Schema.Pipeline
import Vertz.Proofs.SchemaDrift

/-!
# `Vertz.Proofs.SharedContexts`: fields that share a context

An object runs its fields in one context, whose issues skip every later
refinement, transform and pipe. So a field behind a failing one counts
for itself only where it evaluates none of these (`compositional_iff`).
-/

namespace Vertz.Schema

namespace Step

variable {steps : List Step}

theorem runAll_eq_map
    (h : steps.Pairwise fun before step =>
      (before.run false).issues ≠ [] → (step.run false).evaluated = []) :
    runAll steps false = steps.map (·.run false) := by
  induction steps with
  | nil => rfl
  | cons step steps ih =>
    obtain ⟨hfirst, hrest⟩ := List.pairwise_cons.mp h
    rw [List.map_cons, ← ih hrest]
    cases hissues : (step.run false).issues with
    | nil => simp [runAll, hissues]
    | cons issue issues =>
      have hsettled : runAll steps true = runAll steps false := by
        rw [runAll_true, ih hrest]
        exact List.map_congr_left fun later hmem =>
          later.settled (hfirst later hmem (by simp [hissues]))
      simp [runAll, hissues, hsettled]

theorem runAll_evaluated_iff :
    (runAll steps false).map Outcome.evaluated = steps.map (fun step => (step.run false).evaluated) ↔
      steps.Pairwise fun before step =>
        (before.run false).issues ≠ [] → (step.run false).evaluated = [] := by
  constructor
  · intro h
    induction steps with
    | nil => exact .nil
    | cons step steps ih =>
      rw [runAll, List.map_cons, List.map_cons, List.cons.injEq] at h
      cases hissues : (step.run false).issues with
      | nil =>
        rw [hissues] at h
        exact .cons (fun _ _ hne => absurd hissues hne) (ih h.2)
      | cons issue issues =>
        -- behind the first issue nothing is evaluated
        have hnone : ∀ later ∈ steps, (later.run false).evaluated = [] := by
          intro later hmem
          have heq := h.2
          simp only [hissues, List.isEmpty_cons, Bool.not_false, Bool.or_true, runAll_true,
            List.map_map] at heq
          exact (List.map_inj_left.mp heq later hmem).symm.trans later.skips
        exact .cons (fun later hmem _ => hnone later hmem)
          (List.pairwise_of_forall_mem_list fun _ _ later hmem _ => hnone later hmem)
  · intro h
    rw [runAll_eq_map h, List.map_map]
    rfl

end Step

variable {shape : List (String × Field)} {mode : UnknownKeyMode} {catchall : Option Pipeline}
  {obj : List (String × Js)}

/-- What a part reports on its own: the issues of parsing a field alone,
under its name, and the issues of the object itself. -/
def Part.alone : Part → List ValidationIssue
  | .field key schema value => (schema.parse value).issues.map fun issue =>
    { issue with path := .key key :: issue.path }
  | .own code message path => [⟨code, message, path.getD []⟩]
  | .keep .. => []

/-- The part by itself, in a new context at its name. -/
def Part.atName (part : Part) : Outcome := (part.step []).run false

/-- The issues of an object are those of its parts, and every part
evaluates what it evaluates by itself. -/
def Compositional (shape : List (String × Field)) (mode : UnknownKeyMode)
    (catchall : Option Pipeline) (obj : List (String × Js)) : Prop :=
  let parts := objectParts shape mode catchall obj
  ((objectSchema shape mode catchall).parse (.value (.obj obj))).issues.Perm
      (parts.flatMap Part.alone) ∧
    (Step.runAll (parts.map (Part.step [])) false).map Outcome.evaluated =
      parts.map fun part => part.atName.evaluated

/-- The issues of the fields count for themselves if and only if no field
behind an issue evaluates anything by itself, and the fields, each by
itself at its name, report there what they report alone. -/
theorem compositional_iff (shape : List (String × Field)) (mode : UnknownKeyMode)
    (catchall : Option Pipeline) (obj : List (String × Js)) :
    Compositional shape mode catchall obj ↔
      ((objectParts shape mode catchall obj).Pairwise fun before part =>
        before.atName.issues ≠ [] → part.atName.evaluated = []) ∧
      ((objectParts shape mode catchall obj).flatMap (·.atName.issues)).Perm
        ((objectParts shape mode catchall obj).flatMap Part.alone) := by
  have heval := @Step.runAll_evaluated_iff ((objectParts shape mode catchall obj).map (Part.step []))
  rw [List.pairwise_map, List.map_map] at heval
  have hissues : ((objectParts shape mode catchall obj).Pairwise fun before part =>
      before.atName.issues ≠ [] → part.atName.evaluated = []) →
      ((objectSchema shape mode catchall).parse (.value (.obj obj))).issues =
        (objectParts shape mode catchall obj).flatMap (·.atName.issues) := by
    intro hpart
    show (Step.runAll ((objectParts shape mode catchall obj).map (Part.step [])) false).flatMap
      (·.issues) = _
    rw [Step.runAll_eq_map (List.pairwise_map.mpr hpart), List.map_map, List.flatMap_map]
    rfl
  constructor
  · rintro ⟨hperm, hevaluated⟩
    have hpart := heval.mp hevaluated
    exact ⟨hpart, hissues hpart ▸ hperm⟩
  · rintro ⟨hpart, hperm⟩
    exact ⟨hissues hpart ▸ hperm, heval.mpr hpart⟩

/-- Two texts, the second of which no value satisfies. -/
def refusing : List (String × Field) :=
  let text := plain Proofs.asciiRuntime (.string {})
  [("a", ⟨.other, text⟩), ("b", ⟨.other, refinedSchema text (fun _ => false) "refused" none⟩)]

/-- The refusal is not reported behind a number for the first text. -/
theorem refusal_skipped :
    ¬ ∀ shape mode catchall obj, Compositional shape mode catchall obj := by
  intro h
  have hlength := (h refusing .strip none [("a", .num 1), ("b", .str "x")]).1.length_eq
  revert hlength
  decide +kernel

end Vertz.Schema

