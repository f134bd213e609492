import Mathlib.Data.List.Sort
import Vertz.Lib.Frontier
import Vertz.Lib.Record

/-!
# `Vertz.Native.Ci.Changes`: the packages that changed files affect

A path is the list of its components. `map_files_to_packages` finds the
package of each changed file and what depends on these packages, and the
affected filter of a workflow decides which packages run. Sets of names
are lists without repetition, of which only the members count.
-/

namespace Vertz.Native.Ci

open Vertz.Lib

abbrev Path := List String

structure LocatedPackage where
  path : Path
  /-- The other packages of the workspace that this one depends on. -/
  internalDeps : List String
  deriving DecidableEq, Repr

structure LocatedWorkspace where
  packages : Record LocatedPackage
  /-- The paths of the native crates. -/
  nativeCrates : Record Path

structure AffectedResult where
  directlyChanged : List String
  transitivelyAffected : List String
  allAffected : List String
  rootChanged : Bool
  deriving DecidableEq, Repr

/-! ### Files and packages -/

/-- The paths with their names, the longest first. -/
def packagePaths (workspace : LocatedWorkspace) : List (Path × String) :=
  (workspace.packages.entries.map (fun e => (e.2.path, e.1)) ++
    workspace.nativeCrates.entries.map (fun e => (e.2, e.1))).insertionSort
      fun a b => b.1.length ≤ a.1.length

/-- The first package whose path the file starts with. -/
def packageOf (workspace : LocatedWorkspace) (file : Path) : Option String :=
  ((packagePaths workspace).find? fun entry => entry.1.isPrefixOf file).map Prod.snd

def insertName (names : List String) (name : String) : List String :=
  if name ∈ names then names else names ++ [name]

/-- One file in the loop over the files. -/
def placeFile (workspace : LocatedWorkspace) (found : List String × Bool) (file : Path) :
    List String × Bool :=
  match packageOf workspace file with
  | some name => (insertName found.1 name, found.2)
  | none => (found.1, true)

/-! ### Dependents -/

/-- The packages that depend on one. -/
def reverseDeps (packages : Record LocatedPackage) (dep : String) : List String :=
  packages.entries.flatMap fun e => (e.2.internalDeps.filter (· = dep)).map fun _ => e.1

structure Propagation where
  transitive : List String
  queue : List String
  visited : List String

def visitDependent (changed : List String) (state : Propagation) (dep : String) : Propagation :=
  if dep ∈ state.visited then state
  else
    { transitive := if dep ∈ changed then state.transitive else insertName state.transitive dep
      queue := state.queue ++ [dep]
      visited := state.visited ++ [dep] }

def propagate (packages : Record LocatedPackage) (changed : List String) :
    ℕ → Propagation → List String
  | 0, state => state.transitive
  | fuel + 1, state =>
    match state.queue with
    | [] => state.transitive
    | pkg :: queue =>
      propagate packages changed fuel
        ((reverseDeps packages pkg).foldl (visitDependent changed) { state with queue := queue })

/-- A package is queued at most once. -/
def computeTransitiveAffected (changed : List String) (packages : Record LocatedPackage) :
    List String :=
  propagate packages changed (changed.length + packages.entries.length) ⟨[], changed, changed⟩

def mapFilesToPackages (files : List Path) (workspace : LocatedWorkspace) : AffectedResult :=
  let (directlyChanged, rootChanged) := files.foldl (placeFile workspace) ([], false)
  let transitivelyAffected := computeTransitiveAffected directlyChanged workspace.packages
  { directlyChanged, transitivelyAffected, rootChanged
    allAffected := directlyChanged ++ transitivelyAffected }

/-! ### The affected filter -/

inductive RootChangedAction where
  | allPackages
  | rootOnly
  | nothingToRun
  deriving DecidableEq, Repr

def resolveRootChangedAction (rootChanged rootAffectsAll : Bool) : RootChangedAction :=
  if rootChanged then if rootAffectsAll then .allPackages else .rootOnly else .nothingToRun

/-- Which packages run: all of the workspace or those listed. `none` is
the early return without a run. -/
def affectedFilter (workspace : LocatedWorkspace) (rootAffectsAll : Bool) (files : List Path) :
    Option (Option (List String)) :=
  let affected := mapFilesToPackages files workspace
  if affected.allAffected.isEmpty then
    match resolveRootChangedAction affected.rootChanged rootAffectsAll with
    | .allPackages => some none
    | .rootOnly => some (some affected.allAffected)
    | .nothingToRun => none
  else some (some affected.allAffected)

/-- The packages in which the package tasks of the workflow run. -/
def activePackages (workspace : LocatedWorkspace) (rootAffectsAll : Bool) (files : List Path) :
    List String :=
  match affectedFilter workspace rootAffectsAll files with
  | none => []
  | some none => workspace.packages.keys
  | some (some packages) => packages

end Vertz.Native.Ci
