import Mathlib.Data.List.Infix
import Vertz.Native.Pm.Resolver
import Vertz.Native.Pm.Hoist

/-!
# `Vertz.Spec.Resolution`: resolved packages, and where they are found

## Resolution in any order

A run lets the pending tasks start and receive their metadata in any
order. Its result is the graph, the tags resolved and the overrides
applied, or an error.

`outcome` says what a task comes to by itself, and `Possible` follows the
outcomes from the root along every dependency path. Resolution visits a
name with a range once, and a version once, so it only sees some of the
paths: which ones depends on the order. `Coherent` says that those it
leaves out come to the same.
-/

namespace Vertz.Spec.ResolverRun

open Vertz.Native.Pm

/-! ### Overrides -/

/-- The rule is about the dependency, on the path it is reached by. -/
structure OverrideRule.Matches (rule : OverrideRule) (depName : String)
    (parentChain : List String) : Prop where
  target : rule.target = depName
  path : rule.parentPath <:+ parentChain

/-- No matching rule has a longer path. -/
structure MostSpecific (rules : List OverrideRule) (depName : String)
    (parentChain : List String) (rule : OverrideRule) : Prop where
  mem : rule ∈ rules
  applies : OverrideRule.Matches rule depName parentChain
  most : ∀ other ∈ rules, OverrideRule.Matches other depName parentChain →
    other.parentPath.length ≤ rule.parentPath.length

section

variable {V R : Type} [LinearOrder V] (inp : ResolveInput V R)

/-! ### Outcomes -/

/-- What a task comes to. -/
inductive Outcome where
  /-- There is nothing to add: another platform, or a version that was
  there before. -/
  | nothing
  | github (pkg : ResolvedPackage)
  | package (res : Resolution)
  | fails

def Outcome.dependencies : Outcome → List (String × String)
  | .github pkg => pkg.allDependencies
  | .package res => res.pkg.allDependencies
  | _ => []

/-- Whether a package is resolved before resolution starts. -/
def resolvedBefore (key : String) : Bool := ((preResolvedGraph inp).packages.get? key).isSome

def added (res : Resolution) : Outcome :=
  if resolvedBefore inp res.pkg.key then .nothing else .package res

def outcome (task : ResolveTask) : Outcome :=
  if startsWith (effectiveRange inp task) "github:" then
    match (preResolvedGraph inp).findByName task.name with
    | some pkg => .github pkg
    | none => .nothing
  else
    match lockedResolution inp task with
    | some res => added inp res
    | none =>
      match inp.registry task.name with
      | .error _ => .fails
      | .ok metadata =>
        match registryResolution inp task metadata with
        | .error _ => .fails
        | .ok none => .nothing
        | .ok (some res) => added inp res

def Child (task child : ResolveTask) : Prop :=
  child ∈ childTasks task (outcome inp task).dependencies

/-- The dependency, on a path from the root. -/
inductive Possible : ResolveTask → Prop where
  | root {task : ResolveTask} (h : task ∈ rootTasks inp) : Possible task
  | child {task child : ResolveTask} (h : Possible task) (hchild : Child inp task child) :
      Possible child

/-- No override applies to the task, nor below it. -/
def Still (task : ResolveTask) : Prop :=
  ∀ below, Relation.ReflTransGen (Child inp) task below → overrideOf inp below = none

/-- No override applies below the task. -/
def Quiet (task : ResolveTask) : Prop := ∀ child, Child inp task child → Still inp child

/-- Two tasks come to the same, and so does all that is below them. -/
structure Alike (a b : ResolveTask) : Prop where
  name : a.name = b.name
  outcome : outcome inp a = outcome inp b
  below : a.parentChain = b.parentChain ∨ Quiet inp a ∧ Quiet inp b

/-- What is left out comes to the same as what is kept. -/
structure Coherent : Prop where
  visit : ∀ a b, Possible inp a → Possible inp b → visitKey inp a = visitKey inp b →
    Alike inp a b
  version : ∀ a b res res', Possible inp a → Possible inp b → outcome inp a = .package res →
    outcome inp b = .package res' → res.pkg.key = res'.pkg.key → Alike inp a b
  /-- A GitHub package is the first of its name in the graph. -/
  github : ∀ a b res, Possible inp a → Possible inp b →
    startsWith (effectiveRange inp a) "github:" = true → outcome inp b = .package res →
    res.pkg.name = a.name →
      ∃ p, (preResolvedGraph inp).packages.get? p.key = some p ∧ p.name = a.name ∧
        p.key < res.pkg.key

/-! ### Runs -/

def Step (run run' : ResolveRun) : Prop := ∃ i, step inp run i = some run'

def Reached (run : ResolveRun) : Prop := Relation.ReflTransGen (Step inp) (initialRun inp) run

/-- Nothing is left to do. -/
structure Finished (run : ResolveRun) : Prop where
  pending : run.pending = []
  failed : run.failed = none

/-- Every order gives the same result. -/
structure OrderIndependent : Prop where
  failure : ∀ a b, Reached inp a → Reached inp b → a.failed.isSome = true → ¬ Finished b
  graph : ∀ a b, Reached inp a → Reached inp b → Finished a → Finished b →
    a.state.graph = b.state.graph
  overrides : ∀ a b, Reached inp a → Reached inp b → Finished a → Finished b →
    ∀ app, app ∈ a.state.overrideApps ↔ app ∈ b.state.overrideApps

/-- A dependency that an override matches on its path is resolved by the
most specific one. -/
def OverridesApplied : Prop :=
  ∀ run, Reached inp run → Finished run → ∀ task, Possible inp task →
    ∀ matching ∈ inp.overrides, OverrideRule.Matches matching task.name task.parentChain →
      ∃ rule, MostSpecific inp.overrides task.name task.parentChain rule ∧
        effectiveRange inp task = rule.version ∧
        ⟨task.name, task.range, rule.version, overridePattern task⟩ ∈ run.state.overrideApps ∧
        ∀ res, outcome inp task = .package res →
          run.state.graph.packages.get? res.pkg.key = some res.pkg

end

end Vertz.Spec.ResolverRun

/-!
## What a package finds under a name

Node looks a name up in the `node_modules` of the package's own directory,
then in the one around it, up to the root. A layout is sound when no two
packages have one directory, what is needed has one, and every lookup of a
declared dependency finds a version that the declared range accepts.

`Hoistable` says the same of the graph before hoisting: which version is
the top one of its name, and which package is the first to depend on
another version.
-/

namespace Vertz.Spec

open Vertz.Lib
open Vertz.Native.Pm

/-- The graph of a resolution: keyed by name and version, nothing nested. -/
structure Resolved where
  graph : ResolvedGraph
  keyed : ∀ key p, graph.packages.get? key = some p → key = p.key
  flat : ∀ key p, graph.packages.get? key = some p → p.nestPath = []

/-- The package is in the graph. -/
def InGraph (graph : ResolvedGraph) (p : ResolvedPackage) : Prop :=
  graph.packages.get? p.key = some p

section

variable {V R : Type} [LinearOrder V] (semver : Semver V R)

/-- The version is one that the specifier asks for. A tag asks for what it
was resolved to, and `github:` and `link:` name the package alone. -/
def accepts (graph : ResolvedGraph) (name spec version : String) : Bool :=
  if isDistTagShape semver spec then
    match graph.distTagResolutions.get? (ResolvedGraph.key name spec) with
    | some resolved => resolved == version
    | none => true
  else if isNonSemverSpec semver spec then true
  else versionSatisfiesRange semver version spec

/-- The dependencies a package looks up: an optional one that was left out
of the graph is not. -/
def lookedUp (graph : ResolvedGraph) (p : ResolvedPackage) : List (String × String) :=
  p.dependencies.entries ++ p.optionalDependencies.entries.filter fun dep =>
    graph.packages.entries.any fun e => e.2.name == dep.1

/-- A package of the graph, or the root, depends on the package. -/
def Needed (graph : ResolvedGraph) (roots : SortedMap String String) (p : ResolvedPackage) :
    Prop :=
  (∃ d, InGraph graph d ∧ ∃ dep ∈ lookedUp graph d,
      dep.1 = p.name ∧ accepts semver graph dep.1 dep.2 p.version = true) ∨
    ∃ spec, roots.get? p.name = some spec ∧ accepts semver graph p.name spec p.version = true

end

/-! ### Lookup in a layout -/

/-- What is linked at a directory. -/
def linkedAt (nodeModules : Path) (m : LinkManifest) (name : String) (nestPath : List String) :
    Option ManifestEntry :=
  (m.packages.entries.map Prod.snd).find? fun e =>
    targetPath nodeModules e.name e.nestPath = targetPath nodeModules name nestPath

/-- Node's lookup from a directory, the innermost package first. -/
def nodeLookup (nodeModules : Path) (m : LinkManifest) (name : String) :
    List String → Option ManifestEntry
  | [] => linkedAt nodeModules m name []
  | inner :: outer =>
    (linkedAt nodeModules m name (inner :: outer).reverse).orElse fun _ =>
      nodeLookup nodeModules m name outer

section

variable {V R : Type} [LinearOrder V] (semver : Semver V R)

/-- A layout in which every dependency is found. -/
structure NodeResolves (nodeModules : Path) (graph : ResolvedGraph) (m : LinkManifest)
    (roots : SortedMap String String) : Prop where
  /-- No two packages have one directory. -/
  apart : ∀ k k' e e', m.packages.get? k = some e → m.packages.get? k' = some e' →
    targetPath nodeModules e.name e.nestPath = targetPath nodeModules e'.name e'.nestPath →
      e.name = e'.name ∧ e.version = e'.version
  placed : ∀ p, InGraph graph p → Needed semver graph roots p →
    ∃ k e, m.packages.get? k = some e ∧ e.name = p.name ∧ e.version = p.version
  found : ∀ k e p, m.packages.get? k = some e →
    graph.packages.get? (ResolvedGraph.key e.name e.version) = some p →
      ∀ dep ∈ lookedUp graph p, ∃ e',
        nodeLookup nodeModules m dep.1 (e.name :: e.nestPath.reverse) = some e' ∧
          accepts semver graph dep.1 dep.2 e'.version = true
  rootFound : ∀ name spec, roots.get? name = some spec → ∃ e',
    nodeLookup nodeModules m name [] = some e' ∧ accepts semver graph name spec e'.version = true

/-! ### The graph before hoisting -/

/-- The version that sorts last among those of its name. -/
def TopVersion (graph : ResolvedGraph) (p : ResolvedPackage) : Prop :=
  ∀ q, InGraph graph q → q.name = p.name →
    compareVersions semver q.version p.version = .lt ∨
      compareVersions semver q.version p.version = .eq ∧ q.key ≤ p.key

/-- The name of the first package, in the order of the keys, that declares
a range the version satisfies. -/
def host (graph : ResolvedGraph) (p : ResolvedPackage) : Option String :=
  (graph.packages.entries.find? fun e => declares semver e.2 p.name p.version).map
    fun e => e.2.name

open Classical in
/-- The packages around the place of a package. -/
noncomputable def home (graph : ResolvedGraph) (p : ResolvedPackage) : List String :=
  if TopVersion semver graph p then [] else (host semver graph p).toList

/-- The package keeps its key in the manifest. -/
def Kept (graph : ResolvedGraph) (p : ResolvedPackage) : Prop :=
  InGraph graph p ∧ ∀ q, InGraph graph q → p.key < q.key →
    manifestKey q.name q.version (home semver graph q) ≠
      manifestKey p.name p.version (home semver graph p)

/-- The package of the name that is next to the contents of `outer`: the
one that `outer` hosts, or else the one at the root. -/
def Visible (graph : ResolvedGraph) (outer name : String) (q : ResolvedPackage) : Prop :=
  Kept semver graph q ∧ q.name = name ∧
    (home semver graph q = [outer] ∨
      home semver graph q = [] ∧
        ∀ q', Kept semver graph q' → q'.name = name → home semver graph q' ≠ [outer])

/-- When a graph can be hoisted. -/
structure Hoistable (graph : ResolvedGraph) (roots : SortedMap String String) : Prop where
  /-- Two versions of a package have different hosts, and only the top
  one has none. -/
  apart : ∀ p q, Kept semver graph p → Kept semver graph q → p.name = q.name →
    home semver graph p = home semver graph q → p = q
  kept : ∀ p, InGraph graph p → Needed semver graph roots p → Kept semver graph p
  /-- A package sees what is hosted with it: by its host, or by itself at
  the root. -/
  found : ∀ p, Kept semver graph p → ∀ dep ∈ lookedUp graph p, ∃ q,
    Visible semver graph ((home semver graph p).headD p.name) dep.1 q ∧
      accepts semver graph dep.1 dep.2 q.version = true
  rootFound : ∀ name spec, roots.get? name = some spec → ∃ q, Kept semver graph q ∧
    q.name = name ∧ home semver graph q = [] ∧ accepts semver graph name spec q.version = true

end

end Vertz.Spec
