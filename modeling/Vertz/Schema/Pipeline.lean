import Vertz.Schema.Parse

/-!
# `Vertz.Schema.Pipeline`: the schemas of one parse context

`parse` runs every part of a schema in one `ParseContext`, which collects
the issues. Refinements, transforms and pipes ask it whether it has any
(`hasIssues`). A schema is here what its `_runPipeline` does in a context,
so that a field is any schema.
-/

namespace Vertz.Schema

open Vertz.Lib

/-- What a context with issues skips. The check of a string format is a
refinement. -/
inductive Stage where
  | refinement
  | transform
  | pipe
  deriving DecidableEq, Repr

/-- The value returned, the issues added, and the stages that were
evaluated, each with its value. -/
structure Outcome where
  result : Input
  issues : List ValidationIssue
  evaluated : List (Stage × Input)

/-- A run in a context, by `ctx.hasIssues()`. -/
structure Step where
  run : Bool → Outcome
  skips : (run true).evaluated = []
  settled : (run false).evaluated = [] → run true = run false

/-- `_runPipeline(value, ctx)`, by the value and the path of the context. -/
abbrev Pipeline := Input → Path → Step

namespace Step

/-- A run that does not ask for issues. -/
def add (result : Input) (issues : List ValidationIssue) : Step where
  run _ := ⟨result, issues, []⟩
  skips := rfl
  settled _ := rfl

/-- A stage behind a run, after `if (ctx.hasIssues()) return result`. -/
def andThen (first : Step) (stage : Stage) (next : Input → Outcome) : Step where
  run hasIssues :=
    let outcome := first.run hasIssues
    if hasIssues || !outcome.issues.isEmpty then outcome
    else
      let last := next outcome.result
      ⟨last.result, last.issues, outcome.evaluated ++ (stage, outcome.result) :: last.evaluated⟩
  skips := by simpa using first.skips
  settled := by
    by_cases hclean : (first.run false).issues.isEmpty = true
    · simp [hclean]
    · simpa [hclean] using first.settled

/-- Runs in one context, one after another. -/
def runAll : List Step → Bool → List Outcome
  | [], _ => []
  | step :: steps, hasIssues =>
    let outcome := step.run hasIssues
    outcome :: runAll steps (hasIssues || !outcome.issues.isEmpty)

variable {steps : List Step}

theorem runAll_true : runAll steps true = steps.map (·.run true) := by
  induction steps with
  | nil => rfl
  | cons step steps ih =>
    rw [List.map_cons, ← ih]
    rfl

theorem runAll_settled (h : ∀ outcome ∈ runAll steps false, outcome.evaluated = []) :
    runAll steps true = runAll steps false := by
  induction steps with
  | nil => rfl
  | cons step steps ih =>
    rw [runAll, List.forall_mem_cons] at h
    have hfirst := step.settled h.1
    cases hclean : (step.run false).issues.isEmpty with
    | true =>
      rw [hclean] at h
      simp [runAll, hfirst, hclean, ih h.2]
    | false => simp [runAll, hfirst, hclean]

/-- A schema with parts, and the value built of what they return. -/
def all (steps : List Step) (result : List Outcome → Input) : Step where
  run hasIssues :=
    let outcomes := runAll steps hasIssues
    ⟨result outcomes, outcomes.flatMap (·.issues), outcomes.flatMap (·.evaluated)⟩
  skips := by
    simp only [runAll_true, List.flatMap_map, List.flatMap_eq_nil_iff]
    exact fun step _ => step.skips
  settled h := by simp only [runAll_settled (List.flatMap_eq_nil_iff.mp h)]

end Step

/-! ### The classes -/

section

variable (rt : Runtime)

/-- A class that asks no context, or only contexts of its own (a union, an
intersection, `catch`). -/
def leaf (parse : Input → Path → Input × List ValidationIssue) : Pipeline := fun v path =>
  .add (parse v path).1 (parse v path).2

/-- A schema that only validates. -/
def plain (schema : Schema) : Pipeline := leaf fun v path =>
  (.value (parse rt schema v path).1, (parse rt schema v path).2)

def optionalSchema (inner : Pipeline) : Pipeline
  | .value .undefined, _ => .add (.value .undefined) []
  | v, path => inner v path

def nullableSchema (inner : Pipeline) : Pipeline
  | .value .null, _ => .add (.value .null) []
  | v, path => inner v path

def defaultSchema (inner : Pipeline) (value : Input) : Pipeline
  | .value .undefined, path => inner value path
  | v, path => inner v path

def refinedSchema (inner : Pipeline) (predicate : Input → Bool) (message : String)
    (own : Option Path) : Pipeline := fun v path =>
  (inner v path).andThen .refinement fun result =>
    ⟨result, issueIf (!predicate result) .custom message (own.getD path), []⟩

/-- The refinement sees the value and the path of the context. -/
def superRefinedSchema (inner : Pipeline) (refinement : Input → Path → List ValidationIssue) :
    Pipeline := fun v path =>
  (inner v path).andThen .refinement fun result => ⟨result, refinement result path, []⟩

def formatSchema (checks : StringChecks) (validate : Input → Bool) (errorMessage : String) :
    Pipeline := fun v path =>
  (plain rt (.string checks) v path).andThen .refinement fun result =>
    ⟨result, issueIf (!validate result) .invalidString errorMessage path, []⟩

/-- The transform returns, or throws an error with or without a message. -/
def transformSchema (inner : Pipeline) (transform : Input → Except (Option String) Input) :
    Pipeline := fun v path =>
  (inner v path).andThen .transform fun result =>
    match transform result with
    | .ok result => ⟨result, [], []⟩
    | .error message => ⟨result, [⟨.custom, message.getD "Transform failed", path⟩], []⟩

def pipeSchema (first second : Pipeline) : Pipeline := fun v path =>
  (first v path).andThen .pipe fun intermediate => (second intermediate path).run false

def arraySchema (element : Pipeline) (checks : ArrayChecks) : Pipeline
  | .value (.arr xs), path =>
    .all (.add (.value (.arr xs)) (lengthIssues rt checks xs.length path) ::
        xs.zipIdx.map fun (x, i) => element (.value x) (path ++ [.index i]))
      fun outcomes => .value (.arr (outcomes.tail.map (·.result.toJs)))
  | v, path => .add v [⟨.invalidType, "Expected array, received " ++ typeof v, path⟩]

end

/-! ### Objects -/

/-- The class of a field's schema, as far as an object asks for it. -/
inductive Wrapper where
  | optional
  | default
  | other
  deriving DecidableEq, Repr

structure Field where
  wrapper : Wrapper
  schema : Pipeline

/-- What an object does about a key: parse a value, add an issue of its
own, or keep the value. -/
inductive Part where
  | field (key : String) (schema : Pipeline) (value : Input)
  | own (code : ErrorCode) (message : String) (path : Option Path)
  | keep (key : String) (value : Js)

def shapePart (obj : List (String × Js)) (key : String) (field : Field) : List Part :=
  match ((Record.lookup key obj).map Input.value).or (inherited key), field.wrapper with
  | some v, _ => [.field key field.schema v]
  | none, .default => [.field key field.schema (.value .undefined)]
  | none, .optional => []
  | none, .other =>
    [.own .missingProperty ("Missing required property \"" ++ key ++ "\"") (some [.key key])]

def unknownParts (mode : UnknownKeyMode) (catchall : Option Pipeline)
    (unknown : List (String × Js)) : List Part :=
  match catchall, mode with
  | some schema, _ =>
    (unknown.filter fun e => e.1 != "__proto__").map fun (key, v) => .field key schema (.value v)
  | none, .strict =>
    if unknown.isEmpty then [] else [.own .unrecognizedKeys (unrecognizedMessage unknown) none]
  | none, .passthrough => unknown.map fun (key, v) => .keep key v
  | none, .strip => []

def objectParts (shape : List (String × Field)) (mode : UnknownKeyMode)
    (catchall : Option Pipeline) (obj : List (String × Js)) : List Part :=
  shape.flatMap (fun (key, field) => shapePart obj key field) ++
    unknownParts mode catchall (obj.filter fun e => !(shape.map Prod.fst).contains e.1)

def Part.step (path : Path) : Part → Step
  | .field key schema value => schema value (path ++ [.key key])
  | .own code message given => .add (.value .undefined) [⟨code, message, given.getD path⟩]
  | .keep _ value => .add (.value value) []

/-- `result[key] = …`. -/
def Part.entry : Part → Outcome → List (String × Js)
  | .field key _ _, outcome => [(key, outcome.result.toJs)]
  | .own .., _ => []
  | .keep key value, _ => [(key, value)]

def objectSchema (shape : List (String × Field)) (mode : UnknownKeyMode)
    (catchall : Option Pipeline) : Pipeline
  | .value (.obj obj), path =>
    let parts := objectParts shape mode catchall obj
    .all (parts.map (Part.step path)) fun outcomes =>
      .value (.obj (((parts.zip outcomes).flatMap fun (part, o) => part.entry o).foldl assign []))
  | v, path => .add v [⟨.invalidType, "Expected object, received " ++ receivedType v, path⟩]

/-- `schema.parse(value)`, in a new context. -/
def Pipeline.parse (schema : Pipeline) (v : Input) : Outcome := (schema v []).run false

end Vertz.Schema
