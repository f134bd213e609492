import Mathlib.Algebra.GroupWithZero.Nat
import Mathlib.Data.List.Sort
import Mathlib.Data.String.Basic
import Vertz.Lib.SortedMap

/-!
# `Vertz.Native.Ci.Cache`: what the scheduler caches

A task that succeeded is stored under a key of its platform, its name,
its package and a hash of its inputs (`computeCacheKey`). A lookup takes the entry of the key
itself, or else the newest one whose key starts with a restore key.

The entries are files, named by their keys. The manifest lists the keys
that were stored, with the times of storing and of the last access, and
the entries that were not accessed for the longest time are dropped when
all together are too large.
-/

namespace Vertz.Native.Ci

open Vertz.Lib

/-! ### Keys -/

def utf8 (text : String) : List UInt8 := text.toUTF8.data.toList

inductive TaskCommand where
  | command (command : String)
  | steps (steps : List String)

/-- `join("\n")` -/
def joinLines : List (List UInt8) → List UInt8
  | [] => []
  | [line] => line
  | line :: lines => line ++ utf8 "\n" ++ joinLines lines

def TaskCommand.text : TaskCommand → List UInt8
  | .command cmd => utf8 cmd
  | .steps lines => joinLines (lines.map utf8)

/-- What the hash of a task is computed from. The files are those that
match its inputs, in the order of their paths; one outside the directory
of the package has no relative path. -/
structure KeyInputs where
  command : TaskCommand
  env : SortedMap String String
  files : List (Option String × List UInt8)
  version : String
  platform : String
  lockfileHash : String

/-- The line of a variable; of a secret only the name is hashed. -/
def envLine (secretNames : List String) (e : String × String) : List UInt8 :=
  utf8 e.1 ++ utf8 "=" ++ utf8 (if e.1 ∈ secretNames then "__secret:" ++ e.1 else e.2) ++ utf8 "\n"

/-- What `hash_input_files` hashes. -/
def fileStream (files : List (Option String × List UInt8)) : List UInt8 :=
  files.flatMap fun f => (f.1.map utf8).getD [] ++ f.2

/-- What `compute_cache_key` hashes. The hexadecimal digits of SHA-256 are
`digest`; the variables are sorted by their keys already. -/
def keyStream (digest : List UInt8 → List UInt8) (secretNames : List String) (run : KeyInputs) :
    List UInt8 :=
  run.command.text ++ run.env.entries.flatMap (envLine secretNames) ++
    digest (fileStream run.files) ++ utf8 run.version ++ utf8 run.platform ++
    utf8 run.lockfileHash

def computeCacheKey (digest : List UInt8 → List UInt8) (secretNames : List String)
    (run : KeyInputs) : List UInt8 := (digest (keyStream digest secretNames run)).take 16

def collectSecretValues (getEnv : String → Option String) (secrets : List String) : List String :=
  (secrets.filterMap getEnv).filter fun v => v != ""

/-- The stream of a task that the scheduler executes, which passes the
values of the secrets where the names belong. -/
def executeStream (digest : List UInt8 → List UInt8) (getEnv : String → Option String)
    (secrets : List String) (run : KeyInputs) : List UInt8 :=
  keyStream digest (collectSecretValues getEnv secrets) run

def cacheKey (taskName : String) (package : Option String) (platform hash : String) : String :=
  match package with
  | some pkg => "pipe-v1-" ++ platform ++ "-" ++ taskName ++ "-" ++ pkg ++ "-" ++ hash
  | none => "pipe-v1-" ++ platform ++ "-" ++ taskName ++ "-root-" ++ hash

def restoreKeys (taskName : String) (package : Option String) (platform : String) :
    List String :=
  match package with
  | some pkg => ["pipe-v1-" ++ platform ++ "-" ++ taskName ++ "-" ++ pkg ++ "-"]
  | none => ["pipe-v1-" ++ platform ++ "-" ++ taskName ++ "-root-"]

/-- `key.replace('/', "__")` -/
def safeKey (key : List Char) : List Char :=
  key.flatMap fun c => if c = '/' then ['_', '_'] else [c]

/-- The name of the file of an entry. -/
def entryPath (key : String) : String := .ofList (safeKey key.toList ++ ".tar.zst".toList)

def startsWith (key pre : String) : Bool := pre.toList.isPrefixOf key.toList

/-! ### The cache -/

structure ManifestEntry where
  size : ℕ
  createdAt : ℕ
  lastAccessed : ℕ
  deriving DecidableEq

/-- A directory of entries that hold `δ`, with its manifest. -/
structure LocalCache (δ : Type) where
  files : SortedMap String δ
  manifest : SortedMap String ManifestEntry

namespace LocalCache

variable {δ : Type}

def empty : LocalCache δ := ⟨.empty, .empty⟩

/-- Drop entries, the one that was not accessed for the longest time
first, until the rest is small enough. -/
def evict (maxSize : ℕ) : ℕ → List (String × ManifestEntry) → LocalCache δ → LocalCache δ
  | _, [], cache => cache
  | currentSize, (key, entry) :: entries, cache =>
    if currentSize ≤ maxSize then cache
    else
      evict maxSize (currentSize - entry.size) entries
        ⟨cache.files.erase (entryPath key), cache.manifest.erase key⟩

def totalSize (cache : LocalCache δ) : ℕ :=
  (cache.manifest.entries.map fun e => e.2.size).sum

def evictIfNeeded (maxSize : ℕ) (cache : LocalCache δ) : LocalCache δ :=
  if cache.totalSize ≤ maxSize then cache
  else
    evict maxSize cache.totalSize
      (cache.manifest.entries.mergeSort fun a b => decide (a.2.lastAccessed ≤ b.2.lastAccessed))
      cache

def putSync (maxSize now : ℕ) (cache : LocalCache δ) (key : String) (data : δ) (size : ℕ) :
    LocalCache δ :=
  evictIfNeeded maxSize
    { files := cache.files.insert (entryPath key) data
      manifest := cache.manifest.insert key ⟨size, now, now⟩ }

/-- Note the access in the manifest. -/
def touch (now : ℕ) (cache : LocalCache δ) (key : String) : LocalCache δ :=
  match cache.manifest.get? key with
  | none => cache
  | some entry =>
    { cache with manifest := cache.manifest.insert key { entry with lastAccessed := now } }

/-- Keep the newer of two keys with the prefix. -/
def newerKey (pre : String) (best : Option (String × ℕ)) (e : String × ManifestEntry) :
    Option (String × ℕ) :=
  if startsWith e.1 pre then
    match best with
    | none => some (e.1, e.2.createdAt)
    | some (_, bestCreated) =>
      if bestCreated < e.2.createdAt then some (e.1, e.2.createdAt) else best
  else best

/-- The newest stored key with the prefix. -/
def bestKey (cache : LocalCache δ) (pre : String) : Option String :=
  (cache.manifest.entries.foldl (newerKey pre) none).map Prod.fst

def restore (now : ℕ) (cache : LocalCache δ) : List String →
    LocalCache δ × Option (String × δ)
  | [] => (cache, none)
  | pre :: restoreKeys =>
    match cache.bestKey pre with
    | none => restore now cache restoreKeys
    | some matchedKey =>
      match cache.files.get? (entryPath matchedKey) with
      | none => restore now cache restoreKeys
      | some data => (cache.touch now matchedKey, some (matchedKey, data))

def getSync (now : ℕ) (cache : LocalCache δ) (key : String) (restoreKeys : List String) :
    LocalCache δ × Option (String × δ) :=
  match cache.files.get? (entryPath key) with
  | some data => (cache.touch now key, some (key, data))
  | none => restore now cache restoreKeys

end LocalCache

end Vertz.Native.Ci
