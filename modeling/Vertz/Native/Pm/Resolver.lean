import Vertz.Native.Pm.Types

/-!
# `Vertz.Native.Pm.Resolver`: from version ranges to a dependency graph

## Versions forced by `package.json`

A rule forces a version of its target, below the packages of its parent
path or everywhere. `findOverride` picks one for a dependency.
-/

namespace Vertz.Native.Pm

structure OverrideRule where
  parentPath : List String
  target : String
  version : String
  deriving DecidableEq

def isSuffixMatch (path chain : List String) : Bool :=
  if chain.length < path.length then false
  else chain.drop (chain.length - path.length) == path

/-- The better of the rule found so far and the next one. -/
def betterRule (depName : String) (parentChain : List String) (best : Option OverrideRule)
    (rule : OverrideRule) : Option OverrideRule :=
  if rule.target ≠ depName then best
  else if rule.parentPath.isEmpty then
    match best with
    | none => some rule
    | some currentBest => if currentBest.parentPath.isEmpty then some rule else best
  else if isSuffixMatch rule.parentPath parentChain then
    match best with
    | none => some rule
    | some currentBest =>
      if currentBest.parentPath.length < rule.parentPath.length then some rule else best
  else best

def findRule (rules : List OverrideRule) (depName : String) (parentChain : List String) :
    Option OverrideRule :=
  rules.foldl (betterRule depName parentChain) none

def findOverride (rules : List OverrideRule) (depName : String) (parentChain : List String) :
    Option String :=
  (findRule rules depName parentChain).map OverrideRule.version

end Vertz.Native.Pm

/-!
## What the registry says of a package

Metadata lists the versions of a package and its dist-tags.
`resolveVersion` picks a version for a range, `matchesPlatform` says
whether it is meant for this machine.
-/

namespace Vertz.Native.Pm

open Vertz.Lib

inductive BinField where
  | single (path : String)
  | map (entries : SortedMap String String)

/-- The part behind the first slash of a scoped name. -/
def unscoped (name : String) : Option String :=
  match name.toList with
  | '@' :: rest => (Rust.splitOnce '/' rest).map fun parts =>
    .ofList (parts.2.takeWhile fun c => c != '/')
  | _ => none

def BinField.toMap (bin : BinField) (packageName : String) : SortedMap String String :=
  match bin with
  | .single path => .ofEntries [((unscoped packageName).getD packageName, path)]
  | .map entries => entries

structure VersionMetadata where
  version : String
  dependencies : SortedMap String String
  optionalDependencies : SortedMap String String
  bin : BinField
  scripts : SortedMap String String
  tarball : String
  integrity : String
  os : Option (List String)
  cpu : Option (List String)

structure PackageMetadata where
  distTags : SortedMap String String
  versions : SortedMap String VersionMetadata

section

variable {V R : Type} [LinearOrder V] (semver : Semver V R)

/-- Keep the better of two versions; one that does not parse is passed
over. -/
def betterVersion (range : R) (best : Option VersionMetadata) (vMeta : VersionMetadata) :
    Option VersionMetadata :=
  match semver.parseVersion vMeta.version with
  | none => best
  | some ver =>
    if semver.satisfies range ver then
      match best with
      | none => some vMeta
      | some currentBest =>
        match semver.parseVersion currentBest.version with
        | none => best
        | some currentVer => if currentVer < ver then some vMeta else best
    else best

/-- The version that a tag or a range picks. -/
def resolveVersion (rangeStr : String) (versions : SortedMap String VersionMetadata)
    (distTags : SortedMap String String) : Option VersionMetadata :=
  ((distTags.get? rangeStr).bind versions.get?).orElse fun _ =>
    (semver.parseRange rangeStr).bind fun range =>
      (versions.entries.map Prod.snd).foldl (betterVersion semver range) none

end

/-! ### Platforms -/

def negated (value : String) : Bool := startsWith value "!"

/-- `&v[1..]` -/
def withoutFirst (value : String) : String := .ofList (value.toList.drop 1)

def matchesField (constraint : Option (List String)) (current : String) : Bool :=
  match constraint with
  | none => true
  | some values =>
    if values.isEmpty then true
    else if values.any fun v => !negated v then
      (values.filter fun v => !negated v).any (fun v => v == current) &&
        !(values.filter negated).any (fun v => withoutFirst v == current)
    else !values.any (fun v => withoutFirst v == current)

structure Platform where
  os : String
  cpu : String

def matchesPlatform (platform : Platform) (os cpu : Option (List String)) : Bool :=
  matchesField os platform.os && matchesField cpu platform.cpu

end Vertz.Native.Pm

/-!
## Resolving a dependency graph

`resolve_all` keeps a set of tasks under way, one for each dependency. A
task that starts looks for an override, stops when its name and effective
range were visited, follows a GitHub package that is resolved already,
takes a version from the lockfile, or asks the registry. When the
metadata arrives it goes on: it picks a version and puts it into the
graph, unless the graph has it, and the dependencies become tasks.

`step` lets one task start, or the metadata of one task arrive. Every
order of these is a run.
-/

namespace Vertz.Native.Pm

open Vertz.Lib

structure OverrideApplication where
  target : String
  originalRange : String
  forcedVersion : String
  pattern : String
  deriving DecidableEq

structure ResolveTask where
  name : String
  range : String
  parentChain : List String
  deriving DecidableEq

/-- What resolution works from. -/
structure ResolveInput (V R : Type) where
  semver : Semver V R
  rootDeps : SortedMap String String
  rootDevDeps : SortedMap String String
  registry : String → Except String PackageMetadata
  lockfile : Lockfile
  overrides : List OverrideRule
  preResolved : List ResolvedPackage
  platform : Platform

structure ResolveState where
  graph : ResolvedGraph
  visited : List String
  metadataCache : SortedMap String PackageMetadata
  overrideApps : List OverrideApplication

/-- A version that is to go into the graph, and the tag it was found by. -/
structure Resolution where
  pkg : ResolvedPackage
  scripts : SortedMap String String
  tag : Option String

/-- A task that started, up to where it stops. -/
inductive TaskStep where
  | done (newTasks : List ResolveTask)
  | fetch
  | fail (error : String)

section

variable {V R : Type} [LinearOrder V] (inp : ResolveInput V R)

def lockfileEntrySatisfiesRange (entry : LockfileEntry) (rangeStr : String) : Bool :=
  startsWith rangeStr "github:" || startsWith rangeStr "link:" ||
    versionSatisfiesRange inp.semver entry.version rangeStr

def overrideOf (task : ResolveTask) : Option String :=
  findOverride inp.overrides task.name task.parentChain

def effectiveRange (task : ResolveTask) : String := (overrideOf inp task).getD task.range

def overridePattern (task : ResolveTask) : String :=
  if task.parentChain.isEmpty then task.name
  else ">".intercalate task.parentChain ++ ">" ++ task.name

def overrideApplication (task : ResolveTask) : Option OverrideApplication :=
  (overrideOf inp task).map fun forced =>
    ⟨task.name, task.range, forced, overridePattern task⟩

def visitKey (task : ResolveTask) : String := task.name ++ "@" ++ effectiveRange inp task

def childTasks (task : ResolveTask) (dependencies : List (String × String)) :
    List ResolveTask :=
  dependencies.map fun dep => ⟨dep.1, dep.2, task.parentChain ++ [task.name]⟩

/-- The version that the lockfile pins for the task. -/
def lockedResolution (task : ResolveTask) : Option Resolution :=
  ((inp.lockfile.entries.get? (Lockfile.specKey task.name task.range)).filter fun entry =>
      effectiveRange inp task == task.range && lockfileEntrySatisfiesRange inp entry task.range).map
    fun entry =>
      { pkg :=
          { name := task.name
            version := entry.version
            tarballUrl := entry.resolved
            integrity := entry.integrity
            dependencies := entry.dependencies
            optionalDependencies := entry.optionalDependencies
            bin := entry.bin
            nestPath := []
            os := entry.os
            cpu := entry.cpu }
        scripts := entry.scripts
        tag := none }

/-- The version that the metadata gives for the task; none on another
platform. -/
def registryResolution (task : ResolveTask) (metadata : PackageMetadata) :
    Except String (Option Resolution) :=
  match resolveVersion inp.semver (effectiveRange inp task) metadata.versions
      metadata.distTags with
  | none =>
    .error ("No version of '" ++ task.name ++ "' matches range '" ++ effectiveRange inp task ++
      "'")
  | some vMeta =>
    if matchesPlatform inp.platform vMeta.os vMeta.cpu then
      .ok (some
        { pkg :=
            { name := task.name
              version := vMeta.version
              tarballUrl := vMeta.tarball
              integrity := vMeta.integrity
              dependencies := vMeta.dependencies
              optionalDependencies := vMeta.optionalDependencies
              bin := vMeta.bin.toMap task.name
              nestPath := []
              os := vMeta.os
              cpu := vMeta.cpu }
          scripts := vMeta.scripts
          tag :=
            if isDistTagShape inp.semver (effectiveRange inp task) then
              some (effectiveRange inp task)
            else none })
    else .ok none

end

/-! ### The graph -/

namespace ResolvedGraph

def insertScripts (graph : ResolvedGraph) (res : Resolution) :
    SortedMap String (SortedMap String String) :=
  if res.scripts.isEmpty then graph.scripts else graph.scripts.insert res.pkg.key res.scripts

def insertTag (graph : ResolvedGraph) (res : Resolution) : SortedMap String String :=
  match res.tag with
  | none => graph.distTagResolutions
  | some tag => graph.distTagResolutions.insert (key res.pkg.name tag) res.pkg.version

def insert (graph : ResolvedGraph) (res : Resolution) : ResolvedGraph where
  packages := graph.packages.insert res.pkg.key res.pkg
  scripts := graph.insertScripts res
  distTagResolutions := graph.insertTag res

/-- The first package of a name. -/
def findByName (graph : ResolvedGraph) (name : String) : Option ResolvedPackage :=
  (graph.packages.entries.map Prod.snd).find? fun p => p.name == name

end ResolvedGraph

/-- Put a version into the graph, unless the graph has it. -/
def addResolution (st : ResolveState) (task : ResolveTask) (res : Resolution) :
    ResolveState × TaskStep :=
  if (st.graph.packages.get? res.pkg.key).isSome then (st, .done [])
  else ({ st with graph := st.graph.insert res }, .done (childTasks task res.pkg.allDependencies))

/-! ### One task -/

section

variable {V R : Type} [LinearOrder V] (inp : ResolveInput V R)

/-- Go on with the metadata. -/
def finishTask (st : ResolveState) (task : ResolveTask) (metadata : PackageMetadata) :
    ResolveState × TaskStep :=
  match registryResolution inp task metadata with
  | .error e => (st, .fail e)
  | .ok none => (st, .done [])
  | .ok (some res) => addResolution st task res

/-- A task that was not visited before. -/
def visitTask (st : ResolveState) (task : ResolveTask) : ResolveState × TaskStep :=
  if startsWith (effectiveRange inp task) "github:" then
    match st.graph.findByName task.name with
    | some pkg => (st, .done (childTasks task pkg.allDependencies))
    | none => (st, .done [])
  else
    match lockedResolution inp task with
    | some res => addResolution st task res
    | none =>
      match st.metadataCache.get? task.name with
      | some metadata => finishTask inp st task metadata
      | none => (st, .fetch)

def startTask (st : ResolveState) (task : ResolveTask) : ResolveState × TaskStep :=
  let st := { st with overrideApps := st.overrideApps ++ (overrideApplication inp task).toList }
  if st.visited.contains (visitKey inp task) then (st, .done [])
  else visitTask inp { st with visited := visitKey inp task :: st.visited } task

/-- The metadata of a task arrives. -/
def receiveMetadata (st : ResolveState) (task : ResolveTask) : ResolveState × TaskStep :=
  match inp.registry task.name with
  | .error e => (st, .fail e)
  | .ok metadata =>
    let cache :=
      if (st.metadataCache.get? task.name).isSome then st.metadataCache
      else st.metadataCache.insert task.name metadata
    finishTask inp { st with metadataCache := cache } task metadata

/-! ### All tasks -/

inductive Pending where
  | queued (task : ResolveTask)
  | fetching (task : ResolveTask)

structure ResolveRun where
  state : ResolveState
  pending : List Pending
  /-- The error that ended the run. -/
  failed : Option String

def preResolvedGraph : ResolvedGraph :=
  { ResolvedGraph.empty with packages := .ofEntries (inp.preResolved.map fun p => (p.key, p)) }

def rootTasks : List ResolveTask :=
  (inp.rootDeps.entries ++ inp.rootDevDeps.entries).map fun dep => ⟨dep.1, dep.2, []⟩

def initialRun : ResolveRun where
  state := ⟨preResolvedGraph inp, [], .empty, []⟩
  pending := (rootTasks inp).map .queued
  failed := none

/-- What becomes of the task at an index. -/
def settle (pending : List Pending) (i : ℕ) (task : ResolveTask) :
    ResolveState × TaskStep → ResolveRun
  | (st, .done newTasks) => ⟨st, pending.eraseIdx i ++ newTasks.map .queued, none⟩
  | (st, .fetch) => ⟨st, pending.set i (.fetching task), none⟩
  | (st, .fail e) => ⟨st, pending.eraseIdx i, some e⟩

/-- The task at an index starts, or receives its metadata. -/
def step (run : ResolveRun) (i : ℕ) : Option ResolveRun :=
  match run.failed, run.pending[i]? with
  | none, some (.queued task) => some (settle run.pending i task (startTask inp run.state task))
  | none, some (.fetching task) =>
    some (settle run.pending i task (receiveMetadata inp run.state task))
  | _, _ => none

end

end Vertz.Native.Pm
