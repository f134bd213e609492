import Vertz.Native.Pm.Types

/-!
# `Vertz.Native.Pm.Hoist`: which packages go to the root

`dedup` drops the other versions of a package when one satisfies every
range that is declared for it. `hoist` groups the packages by name: of
several versions one stays at the root, and each other one is nested
under the first package that declares a range it satisfies.
-/

namespace Vertz.Native.Pm

open Vertz.Lib

section

variable {V R : Type} [LinearOrder V] (semver : Semver V R)

/-- The keys of the packages by name. -/
def groupByName (graph : ResolvedGraph) : SortedMap String (List String) :=
  .groupBy (fun e => e.2.name) Prod.fst graph.packages.entries

/-! ### dedup -/

/-- The ranges that the root and the packages declare, by name. -/
def rangesByName (graph : ResolvedGraph) (rootDeps : SortedMap String String) :
    SortedMap String (List String) :=
  .groupBy Prod.fst Prod.snd
    (rootDeps.entries ++ graph.packages.entries.flatMap fun e => e.2.allDependencies)

def versionAt (graph : ResolvedGraph) (key : String) : String :=
  ((graph.packages.get? key).map ResolvedPackage.version).getD ""

/-- The highest version that satisfies every range. -/
def dedupWinner (graph : ResolvedGraph) (keys ranges : List String) : Option String :=
  Rust.maxBy (fun a b => compareVersions semver (versionAt graph a) (versionAt graph b))
    (keys.filter fun key => ranges.all fun range =>
      versionSatisfiesRange semver (versionAt graph key) range)

def ResolvedGraph.remove (graph : ResolvedGraph) (key : String) : ResolvedGraph :=
  { graph with
    packages := graph.packages.erase key
    scripts := graph.scripts.erase key }

/-- Drop all versions of a name but the one that can stand for all, and
say whether any was dropped. -/
def dedupName (ranges : SortedMap String (List String)) (st : ResolvedGraph × Bool)
    (group : String × List String) : ResolvedGraph × Bool :=
  if group.2.length < 2 then st
  else
    match ranges.get? group.1 with
    | none => st
    | some ranges =>
      if ranges.any (isNonSemverSpec semver) then st
      else
        match dedupWinner semver st.1 group.2 ranges with
        | none => st
        | some winner =>
          (group.2.filter fun key => key != winner).foldl
            (fun st key => (st.1.remove key, true)) st

def dedupPass (graph : ResolvedGraph) (rootDeps : SortedMap String String) :
    ResolvedGraph × Bool :=
  (groupByName graph).entries.foldl (dedupName semver (rangesByName graph rootDeps))
    (graph, false)

/-- The loop, for at most so many passes. -/
def dedupLoop (rootDeps : SortedMap String String) : ℕ → ResolvedGraph → ResolvedGraph
  | 0, graph => graph
  | passes + 1, graph =>
    match dedupPass semver graph rootDeps with
    | (graph', true) => dedupLoop rootDeps passes graph'
    | (graph', false) => graph'

/-- Every pass but the last drops a package. -/
def dedup (graph : ResolvedGraph) (rootDeps : SortedMap String String) : ResolvedGraph :=
  dedupLoop semver rootDeps (graph.packages.entries.length + 1) graph

/-! ### hoist -/

/-- How many packages depend on the version under the key. -/
def depCount (graph : ResolvedGraph) (keys : List String) (pkg : ResolvedPackage) : ℕ :=
  (graph.packages.entries.filter fun e => e.2.allDependencies.any fun dep =>
    keys.contains (ResolvedGraph.key dep.1 pkg.version) && dep.1 == pkg.name).length

/-- The version with the most dependents, the higher one of two. -/
def hoistedKey (graph : ResolvedGraph) (keys : List String) : Option String :=
  let count (key : String) : ℕ := ((graph.packages.get? key).map (depCount graph keys)).getD 0
  Rust.maxBy (fun a b => (compare (count a) (count b)).then
    (compareVersions semver (versionAt graph a) (versionAt graph b))) keys

/-- The package declares a range of the name that the version satisfies. -/
def declares (p : ResolvedPackage) (name version : String) : Bool :=
  p.allDependencies.any fun dep => dep.1 == name && versionSatisfiesRange semver version dep.2

/-- The names of the packages that depend on the version. -/
def dependents (graph : ResolvedGraph) (name version : String) : List String :=
  (graph.packages.entries.filter fun e => declares semver e.2 name version).map fun e => e.2.name

/-- Nest the version under the key, if any package depends on it. -/
def nest (graph : ResolvedGraph) (key : String) : ResolvedGraph :=
  match graph.packages.get? key with
  | none => graph
  | some pkg =>
    match (dependents semver graph pkg.name pkg.version).head? with
    | none => graph
    | some parent =>
      { graph with packages := graph.packages.insert key { pkg with nestPath := [parent] } }

/-- Choose the version of a name that stays at the root and nest the
others. -/
def hoistName (graph : ResolvedGraph) (keys : List String) : ResolvedGraph :=
  if keys.length = 1 then graph
  else
    match hoistedKey semver graph keys with
    | none => graph
    | some hoisted =>
      (keys.filter fun key => key != hoisted).foldl (nest semver) graph

def hoist (graph : ResolvedGraph) : ResolvedGraph :=
  (groupByName graph).entries.foldl (fun g e => hoistName semver g e.2) graph

end

end Vertz.Native.Pm

/-!
## What is linked into `node_modules`

A path is the list of the parts that are joined; the name of a scoped
package is one part.
-/

namespace Vertz.Native.Pm

open Vertz.Lib

abbrev Path := List String

structure ManifestEntry where
  name : String
  version : String
  nestPath : List String
  hasScripts : Bool
  hasPatch : Bool
  deriving DecidableEq

structure LinkManifest where
  packages : SortedMap String ManifestEntry

def hasPostinstall (scripts : Option (SortedMap String String)) : Bool :=
  (scripts.map fun s => (s.get? "postinstall").isSome).getD false

def manifestKey (name version : String) (nestPath : List String) : String :=
  if nestPath.isEmpty then name ++ "@" ++ version
  else name ++ "@" ++ version ++ "@" ++ "/".intercalate nestPath

def manifestEntry (graph : ResolvedGraph) (patchedPackages : List String)
    (pkg : ResolvedPackage) : ManifestEntry where
  name := pkg.name
  version := pkg.version
  nestPath := pkg.nestPath
  hasScripts := hasPostinstall (graph.scripts.get? (pkg.name ++ "@" ++ pkg.version))
  hasPatch := patchedPackages.contains pkg.name

def buildManifest (graph : ResolvedGraph) (patchedPackages : List String) : LinkManifest where
  packages := .ofEntries (graph.packages.entries.map fun e =>
    (manifestKey e.2.name e.2.version e.2.nestPath, manifestEntry graph patchedPackages e.2))

/-- The directory of a package. -/
def targetPath (nodeModules : Path) (name : String) (nestPath : List String) : Path :=
  nodeModules ++ (nestPath.flatMap fun parent => [parent, "node_modules"]) ++ [name]

end Vertz.Native.Pm
