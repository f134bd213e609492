import Vertz.Ui.Store.Normalize

/-!
# `Vertz.Ui.Store.EntityStore`: the normalized entity cache

`packages/ui/src/store/entity-store.ts` and `query-result-index.ts`. An
entry holds the server-confirmed `base`, the optimistic `layers` in
insertion order and the signal consumers read, which is `none` while it
reads `undefined`. Reading a missing entity creates a placeholder with
such a signal.

`Date.now()` is a parameter of the operations that read it. Type
listeners and the development proxies of the field tracker are left out:
they return nothing to the store.

For each operation the module states which entry it writes
(`entryAt_get` … `entryAt_commitLayer`); later proofs read the store
through `entryAt` only.
-/

namespace Vertz.Ui.Store

open Vertz.Lib

/-! ### `QueryResultIndex` -/

/-- Ordered entity ids by query key. -/
abbrev QueryResultIndex := Record (List String)

namespace QueryResultIndex

/-- Remove an id from every index. -/
def removeEntity (indices : QueryResultIndex) (entityId : String) : QueryResultIndex :=
  indices.mapValues fun ids => ids.filter fun id => id != entityId

/-- The indices that contain the id, each with all its ids. -/
def snapshotEntity (indices : QueryResultIndex) (entityId : String) : QueryResultIndex :=
  indices.filterEntries fun e => e.2.contains entityId

/-- `clear`. -/
def clear (indices : QueryResultIndex) (queryKey : String) : QueryResultIndex :=
  indices.erase queryKey

end QueryResultIndex

/-! ### Entries -/

structure EntityEntry where
  /-- The value of the signal, `none` while it is undefined. -/
  signal : Option Entity
  base : Entity
  layers : Record Entity
  refCount : ℕ
  orphanedAt : Option ℤ
  lastPlainVisible : Option Entity

namespace EntityEntry

/-- The entry `get` creates for a missing entity. -/
def placeholder : EntityEntry where
  signal := none
  base := Record.empty
  layers := Record.empty
  refCount := 0
  orphanedAt := none
  lastPlainVisible := none

/-- The entry `_mergeOne` creates for a new entity. -/
def ofItem (item : Entity) : EntityEntry where
  signal := some item
  base := item
  layers := Record.empty
  refCount := 0
  orphanedAt := none
  lastPlainVisible := some item

/-- Write the overlay of base and layers to the signal, unless it
compares equal to the last one. -/
def _recomputeVisible (entry : EntityEntry) : EntityEntry :=
  let visible := overlay entry.base entry.layers
  match entry.lastPlainVisible with
  | none => { entry with lastPlainVisible := some visible, signal := some visible }
  | some lastPlain =>
    if shallowEqual lastPlain visible then entry
    else { entry with lastPlainVisible := some visible, signal := some visible }

/-- The entity is unreferenced for `maxAge` and has no pending layer. -/
def evictable (maxAge now : ℤ) (entry : EntityEntry) : Bool :=
  match entry.orphanedAt with
  | none => false
  | some orphanedAt =>
    entry.refCount == 0 && decide (now - orphanedAt ≥ maxAge) && entry.layers.entries.isEmpty

/-- `_mergeOne` on an existing entry. -/
def mergeItem (entry : EntityEntry) (item : Entity) : EntityEntry :=
  let mergedBase := shallowMerge entry.base item
  if shallowEqual entry.base mergedBase then entry
  else { entry with base := mergedBase }._recomputeVisible

/-- `applyLayer` on an existing entry. -/
def applyLayer (entry : EntityEntry) (mutationId : String) (patch : Entity) : EntityEntry :=
  { entry with layers := entry.layers.insert mutationId patch }._recomputeVisible

/-- `rollbackLayer` on an existing entry. -/
def rollbackLayer (entry : EntityEntry) (mutationId : String) : EntityEntry :=
  { entry with layers := entry.layers.erase mutationId }._recomputeVisible

/-- `commitLayer` on an existing entry, the server data normalized. -/
def commitLayer (entry : EntityEntry) (mutationId : String) (normalized : Entity) : EntityEntry :=
  { entry with base := normalized, layers := entry.layers.erase mutationId }._recomputeVisible

def addRef (entry : EntityEntry) : EntityEntry :=
  { entry with refCount := entry.refCount + 1, orphanedAt := none }

def removeRef (entry : EntityEntry) (now : ℤ) : EntityEntry :=
  let refCount := if entry.refCount > 0 then entry.refCount - 1 else entry.refCount
  { entry with
    refCount := refCount
    orphanedAt := if refCount = 0 then some now else entry.orphanedAt }

end EntityEntry

/-! ### The store -/

structure EntityStore where
  _entities : Record (Record EntityEntry)
  queryIndices : QueryResultIndex

namespace EntityStore

def empty : EntityStore where
  _entities := Record.empty
  queryIndices := Record.empty

/-- `this._entities.get(type)?.get(id)`. -/
def entryAt (store : EntityStore) (type id : String) : Option EntityEntry :=
  (store._entities.get? type).bind fun typeMap => typeMap.get? id

/-- `this._getOrCreateTypeMap(type).set(id, entry)`. -/
def setEntry (store : EntityStore) (type id : String) (entry : EntityEntry) : EntityStore :=
  let typeMap := (store._entities.get? type).getD Record.empty
  { store with _entities := store._entities.insert type (typeMap.insert id entry) }

/-- `typeMap.delete(id)`. -/
def deleteEntry (store : EntityStore) (type id : String) : EntityStore :=
  match store._entities.get? type with
  | none => store
  | some typeMap => { store with _entities := store._entities.insert type (typeMap.erase id) }

/-- Update the entry in place, if there is one. -/
def modifyEntry (store : EntityStore) (type id : String) (f : EntityEntry → EntityEntry) :
    EntityStore :=
  match store.entryAt type id with
  | none => store
  | some entry => store.setEntry type id (f entry)

/-- Read a single entity: the store with the signal created, and the
value the signal has. -/
def get (store : EntityStore) (type id : String) : EntityStore × Option Entity :=
  match store.entryAt type id with
  | some entry => (store, entry.signal)
  | none => (store.setEntry type id EntityEntry.placeholder, none)

/-- Check if an entity exists in the store. -/
def has (store : EntityStore) (type id : String) : Bool :=
  match store.entryAt type id with
  | none => false
  | some entry => entry.signal.isSome

/-- Merge a single, already normalized, entity into the store. -/
def _mergeOne (store : EntityStore) (type : String) (item : Entity) : EntityStore :=
  let id := idOf item
  match store.entryAt type id with
  | some entry => store.setEntry type id (entry.mergeItem item)
  | none => store.setEntry type id (EntityEntry.ofItem item)

/-- Merge the items collected by type. -/
def mergeExtracted (store : EntityStore) (extracted : Extracted) : EntityStore :=
  extracted.entries.foldl (fun s e => e.2.foldl (fun s' item => s'._mergeOne e.1 item) s) store

/-- Evict the orphaned entities; the store and how many there were. -/
def evictOrphans (store : EntityStore) (maxAge now : ℤ) : EntityStore × ℕ :=
  let evicted := store._entities.entries.flatMap fun typeMap =>
    (typeMap.2.entries.filter fun e => e.2.evictable maxAge now).map Prod.fst
  ({ _entities := store._entities.mapValues fun typeMap =>
      typeMap.filterEntries fun e => !e.2.evictable maxAge now
     queryIndices := evicted.foldl QueryResultIndex.removeEntity store.queryIndices },
    evicted.length)

/-- The age at which `merge` evicts orphans. -/
def defaultMaxAge : ℤ := 300000

/-- Merge the entities one item stands for: the nested ones first. -/
def mergeItem (relations : Relations) (type : String) (store : EntityStore) (item : Entity) :
    EntityStore :=
  let result := normalizeEntity relations type item
  (store.mergeExtracted result.extracted)._mergeOne type result.normalized

/-- Merge entities into the store. -/
def merge (relations : Relations) (store : EntityStore) (type : String) (items : List Entity)
    (now : ℤ) : EntityStore :=
  if items.isEmpty then store
  else items.foldl (mergeItem relations type) (store.evictOrphans defaultMaxAge now).1

/-- Remove an entity from the store and its id from every query index. -/
def remove (store : EntityStore) (type id : String) : EntityStore :=
  match store.entryAt type id with
  | none => store
  | some _ =>
    let deleted := store.deleteEntry type id
    { deleted with queryIndices := QueryResultIndex.removeEntity deleted.queryIndices id }

/-- Apply an optimistic layer to an entity. -/
def applyLayer (store : EntityStore) (type id mutationId : String) (patch : Entity) : EntityStore :=
  store.modifyEntry type id fun entry => entry.applyLayer mutationId patch

/-- Rollback an optimistic layer. -/
def rollbackLayer (store : EntityStore) (type id mutationId : String) : EntityStore :=
  store.modifyEntry type id fun entry => entry.rollbackLayer mutationId

/-- Commit an optimistic layer after the server confirms the mutation. -/
def commitLayer (relations : Relations) (store : EntityStore) (type id mutationId : String)
    (serverData : Entity) : EntityStore :=
  match store.entryAt type id with
  | none => store
  | some _ =>
    let result := normalizeEntity relations type serverData
    (store.mergeExtracted result.extracted).modifyEntry type id fun entry =>
      entry.commitLayer mutationId result.normalized

def addRef (store : EntityStore) (type id : String) : EntityStore :=
  store.modifyEntry type id EntityEntry.addRef

def removeRef (store : EntityStore) (type id : String) (now : ℤ) : EntityStore :=
  store.modifyEntry type id fun entry => entry.removeRef now

/-- Optimistically remove an entity. -/
def removeOptimistic (store : EntityStore) (type id : String) : EntityStore :=
  store.remove type id

/-- `this._queryIndices.set(queryKey, ids)`. -/
def setIndex (store : EntityStore) (queryKey : String) (ids : List String) : EntityStore :=
  { store with queryIndices := store.queryIndices.insert queryKey ids }

/-- Restore an entity and its query indices after a failed optimistic
delete. -/
def restoreOptimistic (relations : Relations) (store : EntityStore) (type : String)
    (entitySnapshot : Option Entity) (indexSnapshot : QueryResultIndex) (now : ℤ) : EntityStore :=
  let merged := match entitySnapshot with
    | none => store
    | some entity => merge relations store type [entity] now
  indexSnapshot.entries.foldl (fun s e => s.setIndex e.1 e.2) merged

/-! ### Which entry an operation writes -/

@[simp] theorem entryAt_empty (type id : String) : empty.entryAt type id = none := rfl

variable (store : EntityStore)

@[simp] theorem entryAt_setIndex (queryKey : String) (ids : List String) (type id : String) :
    (store.setIndex queryKey ids).entryAt type id = store.entryAt type id := rfl

theorem entryAt_setEntry (type id : String) (entry : EntityEntry) (type' id' : String) :
    (store.setEntry type id entry).entryAt type' id' =
      if type = type' ∧ id = id' then some entry else store.entryAt type' id' := by
  show ((store._entities.insert type _).get? type').bind _ = _
  rw [Record.get?_insert]
  by_cases ht : type = type'
  · subst ht
    by_cases hi : id = id'
    · subst hi
      simp
    · have hread : (((store._entities.get? type).getD Record.empty).insert id entry).get? id' =
          store.entryAt type id' := by
        rw [Record.get?_insert, if_neg hi, entryAt]
        cases store._entities.get? type <;> rfl
      simp [hi, hread]
  · simp [ht, entryAt]

theorem entryAt_deleteEntry (type id type' id' : String) :
    (store.deleteEntry type id).entryAt type' id' =
      if type = type' ∧ id = id' then none else store.entryAt type' id' := by
  rw [deleteEntry]
  cases htype : store._entities.get? type with
  | none =>
    by_cases h : type = type' ∧ id = id'
    · rw [if_pos h, ← h.1, entryAt, htype]
      rfl
    · rw [if_neg h]
  | some typeMap =>
    show ((store._entities.insert type (typeMap.erase id)).get? type').bind _ = _
    rw [Record.get?_insert]
    by_cases ht : type = type'
    · subst ht
      rw [if_pos rfl, Option.bind_some, Record.get?_erase]
      by_cases hi : id = id'
      · simp [hi]
      · have hne : ¬ id' = id := fun h => hi h.symm
        simp [hi, hne, entryAt, htype]
    · simp [ht, entryAt]

/-- An update in place writes the entry it is called on. -/
theorem entryAt_modifyEntry (type id : String) (f : EntityEntry → EntityEntry)
    (type' id' : String) :
    (store.modifyEntry type id f).entryAt type' id' =
      if type = type' ∧ id = id' then (store.entryAt type id).map f
      else store.entryAt type' id' := by
  rw [modifyEntry]
  cases hentry : store.entryAt type id with
  | none =>
    by_cases h : type = type' ∧ id = id'
    · rw [if_pos h, ← h.1, ← h.2, hentry]
      rfl
    · rw [if_neg h]
  | some entry => exact entryAt_setEntry store type id (f entry) type' id'

theorem entryAt_get (type id type' id' : String) :
    (store.get type id).1.entryAt type' id' =
      if type = type' ∧ id = id' then some ((store.entryAt type id).getD EntityEntry.placeholder)
      else store.entryAt type' id' := by
  rw [get]
  cases hentry : store.entryAt type id with
  | some entry =>
    by_cases h : type = type' ∧ id = id'
    · rw [if_pos h, ← h.1, ← h.2, hentry]
      rfl
    · rw [if_neg h]
  | none => exact entryAt_setEntry store type id EntityEntry.placeholder type' id'

/-- What `get` and `has` say is decided by the entry's signal. -/
theorem get_value (type id : String) :
    (store.get type id).2 = (store.entryAt type id).bind fun entry => entry.signal := by
  rw [get]
  cases store.entryAt type id <;> rfl

theorem has_eq (type id : String) :
    store.has type id = ((store.entryAt type id).bind fun entry => entry.signal).isSome := by
  rw [has]
  cases store.entryAt type id <;> rfl

/-- The entry after an item is merged into it. -/
def mergedEntry (item : Entity) : Option EntityEntry → EntityEntry
  | some entry => entry.mergeItem item
  | none => EntityEntry.ofItem item

theorem entryAt_mergeOne (type : String) (item : Entity) (type' id' : String) :
    (store._mergeOne type item).entryAt type' id' =
      if type = type' ∧ idOf item = id' then some (mergedEntry item (store.entryAt type (idOf item)))
      else store.entryAt type' id' := by
  rw [_mergeOne]
  cases hentry : store.entryAt type (idOf item) with
  | none => exact entryAt_setEntry store type (idOf item) _ type' id'
  | some entry => exact entryAt_setEntry store type (idOf item) _ type' id'

theorem entryAt_evictOrphans (maxAge now : ℤ) (type id : String) :
    (store.evictOrphans maxAge now).1.entryAt type id =
      (store.entryAt type id).filter fun entry => !entry.evictable maxAge now := by
  show ((store._entities.mapValues _).get? type).bind _ = _
  rw [Record.get?_mapValues, entryAt]
  cases store._entities.get? type with
  | none => rfl
  | some typeMap => exact Record.get?_filterEntries typeMap _ id

theorem entryAt_remove (type id type' id' : String) :
    (store.remove type id).entryAt type' id' =
      if type = type' ∧ id = id' then none else store.entryAt type' id' := by
  rw [remove]
  cases hentry : store.entryAt type id with
  | none =>
    by_cases h : type = type' ∧ id = id'
    · rw [if_pos h, ← h.1, ← h.2, hentry]
    · rw [if_neg h]
  | some entry => exact entryAt_deleteEntry store type id type' id'

theorem mergeItem_of_bare {relations : Relations} {type : String} {item : Entity}
    (h : Bare relations type item) (store : EntityStore) :
    ∃ normalized : Entity, normalized.Same item ∧
      mergeItem relations type store item = store._mergeOne type normalized := by
  obtain ⟨hsame, hextracted⟩ := normalizeEntity_of_bare h
  refine ⟨(normalizeEntity relations type item).normalized, hsame, ?_⟩
  rw [mergeItem, hextracted]
  rfl

/-! ### Query indices -/

/-- Setting indices one by one inserts them. -/
theorem foldl_setIndex (es : List (String × List String)) :
    (es.foldl (fun s e => s.setIndex e.1 e.2) store) =
      { store with queryIndices := store.queryIndices.insertAll es } := by
  induction es generalizing store with
  | nil => rfl
  | cons e rest ih =>
    rw [List.foldl_cons, ih]
    rfl

@[simp] theorem queryIndices_setEntry (type id : String) (entry : EntityEntry) :
    (store.setEntry type id entry).queryIndices = store.queryIndices := rfl

@[simp] theorem queryIndices_get (type id : String) :
    (store.get type id).1.queryIndices = store.queryIndices := by
  rw [get]
  cases store.entryAt type id <;> rfl

@[simp] theorem queryIndices_modifyEntry (type id : String) (f : EntityEntry → EntityEntry) :
    (store.modifyEntry type id f).queryIndices = store.queryIndices := by
  rw [modifyEntry]
  cases store.entryAt type id <;> rfl

@[simp] theorem queryIndices_deleteEntry (type id : String) :
    (store.deleteEntry type id).queryIndices = store.queryIndices := by
  rw [deleteEntry]
  cases store._entities.get? type <;> rfl

@[simp] theorem queryIndices_mergeOne (type : String) (item : Entity) :
    (store._mergeOne type item).queryIndices = store.queryIndices := by
  rw [_mergeOne]
  cases store.entryAt type (idOf item) <;> rfl

end EntityStore

end Vertz.Ui.Store
