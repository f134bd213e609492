import Mathlib.Data.String.Basic
import Vertz.Lib.SortedMap
import Vertz.Rust

/-!
# `Vertz.Native.Pm.Types`: graphs, lockfiles and versions

## The lockfile of the package manager

An entry of the lockfile says what a spec `name@range` was resolved to.
The entries are in the order of their keys. A resolved package is what
resolution puts into the graph for a version.
-/

namespace Vertz.Native.Pm

open Vertz.Lib

structure LockfileEntry where
  name : String
  range : String
  version : String
  resolved : String
  integrity : String
  dependencies : SortedMap String String
  optionalDependencies : SortedMap String String
  /-- The executables of the package, with their paths. -/
  bin : SortedMap String String
  scripts : SortedMap String String
  optional : Bool
  /-- The version was forced by an override. -/
  overridden : Bool
  os : Option (List String)
  cpu : Option (List String)
  deriving DecidableEq

/-- A fully resolved package. -/
structure ResolvedPackage where
  name : String
  version : String
  tarballUrl : String
  integrity : String
  dependencies : SortedMap String String
  optionalDependencies : SortedMap String String
  bin : SortedMap String String
  /-- The packages it is nested under in `node_modules`; none at the root. -/
  nestPath : List String
  os : Option (List String)
  cpu : Option (List String)
  deriving DecidableEq

structure ResolvedGraph where
  /-- The packages by `name@version`. -/
  packages : SortedMap String ResolvedPackage
  /-- The scripts of each package. -/
  scripts : SortedMap String (SortedMap String String)
  /-- What `name@tag` was resolved to. -/
  distTagResolutions : SortedMap String String

def ResolvedGraph.empty : ResolvedGraph := ⟨.empty, .empty, .empty⟩

def ResolvedGraph.key (name version : String) : String := name ++ "@" ++ version

namespace ResolvedPackage

def key (p : ResolvedPackage) : String := ResolvedGraph.key p.name p.version

/-- The declared dependencies, the optional ones last. -/
def allDependencies (p : ResolvedPackage) : List (String × String) :=
  p.dependencies.entries ++ p.optionalDependencies.entries

end ResolvedPackage

structure Lockfile where
  /-- 1 is the legacy format, 2 the current one. -/
  version : ℕ
  entries : SortedMap String LockfileEntry
  deriving DecidableEq

def Lockfile.default : Lockfile := ⟨2, .empty⟩

def Lockfile.specKey (name range : String) : String := name ++ "@" ++ range

/-- Split a spec key into name and range: at the last `@`, and at the
first one behind the scope when the name has a scope. -/
def Lockfile.parseSpecKey (key : List Char) : Option (List Char × List Char) :=
  match key with
  | '@' :: rest => (Rust.splitOnce '@' rest).map (fun parts => ('@' :: parts.1, parts.2))
  | _ => Rust.rsplitOnce '@' key

end Vertz.Native.Pm

/-!
## Versions and ranges

Parsing and matching are those of the `node_semver` crate: a parameter.
Versions are ordered by their type `V`.
-/

namespace Vertz.Native.Pm

structure Semver (V R : Type) where
  parseVersion : String → Option V
  parseRange : String → Option R
  satisfies : R → V → Bool

section

variable {V R : Type} (semver : Semver V R)

/-- Both have to parse. -/
def versionSatisfiesRange (versionStr rangeStr : String) : Bool :=
  match semver.parseVersion versionStr, semver.parseRange rangeStr with
  | some version, some range => semver.satisfies range version
  | _, _ => false

def isAsciiAlphabetic (c : Char) : Bool := c.isLower || c.isUpper

def isTagChar (c : Char) : Bool :=
  isAsciiAlphabetic c || c.isDigit || c == '-' || c == '_' || c == '.'

/-- What looks like a dist-tag and is no range. -/
def isDistTagShape (s : String) : Bool :=
  match s.toList with
  | [] => false
  | first :: _ =>
    isAsciiAlphabetic first && s.toList.all isTagChar && (semver.parseRange s).isNone

def startsWith (s pre : String) : Bool := (Rust.stripPrefix pre.toList s.toList).isSome

/-- A specifier that is matched by name alone. -/
def isNonSemverSpec (rangeStr : String) : Bool :=
  startsWith rangeStr "github:" || startsWith rangeStr "link:" || isDistTagShape semver rangeStr

end

/-- The order of two versions; one that does not parse is the lowest. -/
def compareVersions {V R : Type} [LinearOrder V] (semver : Semver V R) (a b : String) : Ordering :=
  Rust.compareOption compare (semver.parseVersion a) (semver.parseVersion b)

/-- A few versions and ranges, a range by its least and its greatest
version. -/
def caretSemver : Semver ℕ (ℕ × ℕ) where
  parseVersion s :=
    if s = "1.0.0" then some 100 else if s = "1.5.0" then some 150
    else if s = "2.0.0" then some 200 else none
  parseRange s :=
    if s = "1.0.0" then some (100, 100) else if s = "1.5.0" then some (150, 150)
    else if s = "^1.0.0" then some (100, 199) else if s = "^2.0.0" then some (200, 299) else none
  satisfies range version := decide (range.1 ≤ version ∧ version ≤ range.2)

/-- A package with no more than its dependencies. -/
def barePackage (name version : String) (dependencies : List (String × String)) :
    ResolvedPackage where
  name
  version
  tarballUrl := ""
  integrity := ""
  dependencies := .ofEntries dependencies
  optionalDependencies := .empty
  bin := .empty
  nestPath := []
  os := none
  cpu := none

end Vertz.Native.Pm
