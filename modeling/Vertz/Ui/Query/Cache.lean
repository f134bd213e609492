import Mathlib.Algebra.Field.Rat
import Vertz.Lib.Record

/-!
# `Vertz.Ui.Query.Cache`: the in-memory cache of queries

`packages/ui/src/query/cache.ts`. A `Map` is a `Record`: its entries in
insertion order, an overwritten key in its place. `clear` and
`findByPrefix` are left out.

The eviction loop is `evictStep` as long as it gives a cache. `evict` takes
a bound on the number of steps; `set` passes one that is never reached
(`evictStep_set`).
-/

namespace Vertz.Ui.Query

open Vertz.Lib

variable {V : Type}

/-- The number given as `maxSize`. -/
inductive MaxSize where
  | nan
  | finite (size : ℚ)
  | infinity
  | negInfinity

/-- `_maxSize`; `none` is `Infinity`. -/
abbrev Limit := Option ℚ≥0

structure MemoryCache (V : Type) where
  _store : Record V
  _maxSize : Limit
  _refs : Record ℕ
  /-- The longest-orphaned key first. -/
  _orphans : Record Unit
  _versions : Record ℕ

namespace MemoryCache

def new (maxSize : Option MaxSize) : MemoryCache V where
  _store := .empty
  _maxSize :=
    match maxSize with
    | none | some .nan => some 1000
    | some (.finite size) => some ⟨max 0 size, le_max_left 0 size⟩
    | some .infinity => none
    | some .negInfinity => some 0
  _refs := .empty
  _orphans := .empty
  _versions := .empty

/-- The key has a value. -/
def stored (c : MemoryCache V) (key : String) : Bool := (c._store.get? key).isSome

def size (c : MemoryCache V) : ℕ := c._store.entries.length

def overCapacity (c : MemoryCache V) : Bool :=
  match c._maxSize with
  | none => false
  | some limit => decide (limit < c.size)

/-- Promote the key to most recently used. -/
def get (c : MemoryCache V) (key : String) : MemoryCache V × Option V :=
  match c._store.get? key with
  | none => (c, none)
  | some value => ({ c with _store := (c._store.erase key).insert key value }, some value)

/-- Forget the key: its value, its count, its place among the orphans. -/
def delete (c : MemoryCache V) (key : String) : MemoryCache V where
  _store := c._store.erase key
  _maxSize := c._maxSize
  _refs := c._refs.erase key
  _orphans := c._orphans.erase key
  _versions := c._versions.erase key

/-- One turn of the loop that evicts while `key` is set: the first orphan,
else the oldest other key without a count, else the oldest key. -/
def evictStep (key : String) (c : MemoryCache V) : Option (MemoryCache V) :=
  if c.overCapacity then
    match c._orphans.keys.head? with
    | some orphan => some (c.delete orphan)
    | none =>
      match c._store.keys.find? fun k => k ≠ key ∧ (c._refs.get? k).isNone with
      | some k =>
        some { c with _store := c._store.erase k, _versions := c._versions.erase k }
      | none => c._store.keys.head?.map c.delete
  else none

def evict (key : String) : ℕ → MemoryCache V → MemoryCache V
  | 0, c => c
  | bound + 1, c =>
    match c.evictStep key with
    | none => c
    | some c' => evict key bound c'

/-- The value at the most recently used place. -/
def write (c : MemoryCache V) (key : String) (value : V) (version : Option ℕ) : MemoryCache V :=
  { c with
    _store := (c._store.erase key).insert key value
    _versions :=
      match version with
      | some version => c._versions.insert key version
      | none => c._versions.erase key }

def set (c : MemoryCache V) (key : String) (value : V) (version : Option ℕ) : MemoryCache V :=
  let written := c.write key value version
  evict key (written.size + written._orphans.entries.length) written

def retain (c : MemoryCache V) (key : String) : MemoryCache V :=
  { c with
    _refs := c._refs.insert key ((c._refs.get? key).getD 0 + 1)
    _orphans := c._orphans.erase key }

def release (c : MemoryCache V) (key : String) : MemoryCache V :=
  match c._refs.get? key with
  | none => c
  | some current =>
    if current ≤ 1 then
      { c with
        _refs := c._refs.erase key
        _orphans := if c.stored key then c._orphans.insert key () else c._orphans }
    else { c with _refs := c._refs.insert key (current - 1) }

end MemoryCache

end Vertz.Ui.Query
