import Vertz.Ui.Store.Hydration
import Vertz.Ui.Store.OptimisticHandler
import Vertz.Ui.Store.Resolve

/-!
# `Vertz.Spec.StoreRuns`: what the operations of the entity store keep

## What a removal may change

Ids are unique within an entity type only, and a query key lists ids of
one type: the type of the entity the query was declared on, whatever the
key is. `typeOf` says which.

`LocalRemoval` is what removing a set of entities promises: the other
entries are as they were, and a query keeps every id that was not removed
under the type the query is over.
-/

namespace Vertz.Spec

open Vertz.Ui.Store

/-- The ids of an index that stand for entities still there. -/
def keptIds (removed : String → String → Bool) (type : String) (ids : List String) :
    List String :=
  ids.filter fun id => !removed type id

/-- `after` differs from `before` in the removed entries and, in the
indices, in ids removed under the type of the query. -/
structure LocalRemoval (typeOf : String → String) (removed : String → String → Bool)
    (before after : EntityStore) : Prop where
  entries : ∀ type id, removed type id = false → after.entryAt type id = before.entryAt type id
  indices : ∀ queryKey,
    (after.queryIndices.get? queryKey).map (keptIds removed (typeOf queryKey)) =
      (before.queryIndices.get? queryKey).map (keptIds removed (typeOf queryKey))

/-- The one entity `remove` is called for. -/
def onlyEntity (type id : String) (type' id' : String) : Bool :=
  type' == type && id' == id

/-- The entities that `evictOrphans` removes. -/
def evicts (store : EntityStore) (maxAge now : ℤ) (type id : String) : Bool :=
  (store.entryAt type id).any fun entry => entry.evictable maxAge now

/-- No query over another type lists an id of a removed entity, unless the
entity of its own type with that id is removed too. -/
def NoSharedId (typeOf : String → String) (removed : String → String → Bool)
    (store : EntityStore) : Prop :=
  ∀ queryKey ids, store.queryIndices.get? queryKey = some ids →
    ∀ id ∈ ids, ∀ type, removed type id = true → removed (typeOf queryKey) id = true

end Vertz.Spec

/-!
## A layer that is rolled back was never there

A store is used through its operations, in any order (`StoreOp`,
`apply`). `hydrate`, `getMany`, `mergeWithSelect` and
`restoreOptimistic` are sequences of them.

Take a run with a mutation that applies a layer to one entity and rolls
it back, and the run without that mutation (`withLayer`, `without`).
`Undone` says that consumers cannot tell the two stores apart. The runs
do differ where the mutation's layer itself matters: an entity with a
pending layer is not evicted (`Evicts`), and a placeholder has no value
to fall back on (`IsPlaceholder`).
-/

namespace Vertz.Spec

open Vertz.Ui.Store

/-- An operation of the store's users. -/
inductive StoreOp where
  | get (type id : String)
  | merge (type : String) (items : List Entity) (now : ℤ)
  | remove (type id : String)
  | applyLayer (type id mutationId : String) (patch : Entity)
  | rollbackLayer (type id mutationId : String)
  | commitLayer (type id mutationId : String) (serverData : Entity)
  | addRef (type id : String)
  | removeRef (type id : String) (now : ℤ)
  | evictOrphans (maxAge now : ℤ)
  | setIndex (queryKey : String) (ids : List String)
  | clearIndex (queryKey : String)

namespace StoreOp

/-- The store after an operation. -/
def apply (relations : Relations) (store : EntityStore) : StoreOp → EntityStore
  | .get type id => (store.get type id).1
  | .merge type items now => store.merge relations type items now
  | .remove type id => store.remove type id
  | .applyLayer type id mutationId patch => store.applyLayer type id mutationId patch
  | .rollbackLayer type id mutationId => store.rollbackLayer type id mutationId
  | .commitLayer type id mutationId serverData =>
    store.commitLayer relations type id mutationId serverData
  | .addRef type id => store.addRef type id
  | .removeRef type id now => store.removeRef type id now
  | .evictOrphans maxAge now => (store.evictOrphans maxAge now).1
  | .setIndex queryKey ids => store.setIndex queryKey ids
  | .clearIndex queryKey =>
    { store with queryIndices := QueryResultIndex.clear store.queryIndices queryKey }

/-- The data merged and committed is JSON: no field is `undefined`.
Patches are free. -/
def Json : StoreOp → Prop
  | .merge _ items _ => ∀ item ∈ items, JsonEntity item
  | .commitLayer _ _ _ serverData => JsonEntity serverData
  | _ => True

/-- The operation is not one of mutation `m` on the entity. -/
def Spares (type id m : String) : StoreOp → Prop
  | .applyLayer type' id' m' _ => type' = type → id' = id → m' ≠ m
  | .rollbackLayer type' id' m' => type' = type → id' = id → m' ≠ m
  | .commitLayer type' id' m' _ => type' = type → id' = id → m' ≠ m
  | _ => True

/-- The operation evicts the entity. -/
def Evicts (store : EntityStore) (type id : String) : StoreOp → Prop
  | .merge _ items now =>
    items ≠ [] ∧ ∃ entry, store.entryAt type id = some entry ∧
      entry.evictable EntityStore.defaultMaxAge now = true
  | .evictOrphans maxAge now =>
    ∃ entry, store.entryAt type id = some entry ∧ entry.evictable maxAge now = true
  | _ => False

instance (op : StoreOp) : Decidable op.Json := by
  cases op <;> unfold Json <;> infer_instance

instance (type id m : String) (op : StoreOp) : Decidable (op.Spares type id m) := by
  cases op <;> unfold Spares <;> infer_instance

instance (entry : Option EntityEntry) (maxAge now : ℤ) :
    Decidable (∃ e, entry = some e ∧ e.evictable maxAge now = true) :=
  decidable_of_iff ((entry.any fun e => e.evictable maxAge now) = true)
    (by rw [Option.any_eq_true])

instance (store : EntityStore) (type id : String) (op : StoreOp) :
    Decidable (op.Evicts store type id) := by
  cases op <;> unfold Evicts <;> infer_instance

end StoreOp

/-- The store after a run. -/
def run (relations : Relations) (store : EntityStore) (ops : List StoreOp) : EntityStore :=
  ops.foldl (StoreOp.apply relations) store

/-- A mutation's layer, on the entity it is applied to. -/
structure Layer where
  type : String
  id : String
  mutationId : String
  patch : Entity

/-- The run with the mutation: applied, then rolled back. -/
def withLayer (relations : Relations) (store : EntityStore) (layer : Layer)
    (between : List StoreOp) : EntityStore :=
  (run relations (store.applyLayer layer.type layer.id layer.mutationId layer.patch)
    between).rollbackLayer layer.type layer.id layer.mutationId

/-- Two values a consumer reads are the same: both `undefined`, or
entities with the same fields. -/
def SameValue : Option Entity → Option Entity → Prop
  | none, none => True
  | some a, some b => a.Same b
  | _, _ => False

instance : (a b : Option Entity) → Decidable (SameValue a b)
  | none, none => isTrue trivial
  | some a, some b => inferInstanceAs (Decidable (a.Same b))
  | none, some _ => isFalse id
  | some _, none => isFalse id

/-- No consumer can tell the stores apart. -/
def SameShown (a b : EntityStore) : Prop :=
  ∀ type id, SameValue (a.get type id).2 (b.get type id).2 ∧ a.has type id = b.has type id

/-- Every entity shows its base overlaid with its layers. -/
def Overlaid (store : EntityStore) : Prop :=
  ∀ type id entry value, store.entryAt type id = some entry → entry.signal = some value →
    value.Same (overlay entry.base entry.layers)

/-- The entity has an entry whose signal is still `undefined`. -/
def IsPlaceholder (store : EntityStore) (type id : String) : Prop :=
  ∃ entry, store.entryAt type id = some entry ∧ entry.signal = none

/-- The mutation's layer is not there yet. -/
def FreshLayer (store : EntityStore) (layer : Layer) : Prop :=
  ∀ entry, store.entryAt layer.type layer.id = some entry →
    entry.layers.get? layer.mutationId = none

instance (store : EntityStore) (type id : String) : Decidable (IsPlaceholder store type id) :=
  decidable_of_iff (((store.entryAt type id).any fun entry => entry.signal.isNone) = true)
    (by simp only [IsPlaceholder, Option.any_eq_true, Option.isNone_iff_eq_none])

instance (store : EntityStore) (layer : Layer) : Decidable (FreshLayer store layer) :=
  decidable_of_iff (((store.entryAt layer.type layer.id).all fun entry =>
      (entry.layers.get? layer.mutationId).isNone) = true)
    (by simp only [FreshLayer, Option.all_eq_true, Option.isNone_iff_eq_none])

/-- What a rolled back mutation promises: the stores of both runs show
the same, and each shows every entity as base overlaid with layers. -/
def Undone (relations : Relations) (store : EntityStore) (layer : Layer)
    (between : List StoreOp) : Prop :=
  SameShown (withLayer relations store layer between) (run relations store between) ∧
    Overlaid (withLayer relations store layer between) ∧ Overlaid (run relations store between)

end Vertz.Spec

/-!
## A store that is serialized and read back

`RoundTrip` compares a store without its optimistic layers to the empty
store hydrated from it through JSON. A store is `Portable` when each
entity carries the id it is stored under, and no key is `__proto__`.
-/

namespace Vertz.Spec

open Vertz.Ui.Store

/-- The entry after each of its layers is rolled back. -/
def withoutLayers (entry : EntityEntry) : EntityEntry :=
  entry.layers.keys.foldl EntityEntry.rollbackLayer entry

/-- What the store shows of an entity without its layers. -/
def confirmedValue (store : EntityStore) (type id : String) : Option Entity :=
  (store.entryAt type id).bind fun entry => (withoutLayers entry).signal

/-- The empty store, hydrated with what the store dehydrates to. -/
def rehydrated (relations : Relations) (store : EntityStore) (now : ℤ) : EntityStore :=
  EntityStore.empty.hydrate relations store.dehydrate.throughJson now

/-- Every entity and every query index comes back, and nothing else. -/
structure RoundTrip (relations : Relations) (store : EntityStore) (now : ℤ) : Prop where
  shown : ∀ type id,
    SameValue ((rehydrated relations store now).get type id).2 (confirmedValue store type id) ∧
      (rehydrated relations store now).has type id = (confirmedValue store type id).isSome
  noOther : ∀ type id, ((rehydrated relations store now).entryAt type id).isSome →
    (confirmedValue store type id).isSome
  indices : ∀ queryKey,
    (rehydrated relations store now).queryIndices.get? queryKey = store.queryIndices.get? queryKey

/-- Each entity carries its id, and no key is `__proto__`. -/
structure Portable (store : EntityStore) : Prop where
  entities : ∀ typeMap ∈ store._entities.entries, ∀ e ∈ typeMap.2.entries,
    field e.2.base "id" = .str e.1 ∧ typeMap.1 ≠ "__proto__" ∧ e.1 ≠ "__proto__"
  queries : ∀ e ∈ store.queryIndices.entries, e.1 ≠ "__proto__"

instance (store : EntityStore) : Decidable (Portable store) :=
  decidable_of_iff ((∀ typeMap ∈ store._entities.entries, ∀ e ∈ typeMap.2.entries,
      field e.2.base "id" = .str e.1 ∧ typeMap.1 ≠ "__proto__" ∧ e.1 ≠ "__proto__") ∧
      ∀ e ∈ store.queryIndices.entries, e.1 ≠ "__proto__")
    ⟨fun ⟨entities, queries⟩ => ⟨entities, queries⟩, fun h => ⟨h.entities, h.queries⟩⟩

end Vertz.Spec

/-!
## Mutations that all fail

Optimistic updates and deletes are started and rolled back in any order.
The state of a run is the store and the closures of the mutations still
pending, in the order they were started.

`Untouched` is what a run in which everything was rolled back promises.
A step is `Careful` when the store can take it back:

* an update is started on an entity whose signal shows its base overlaid
  with its layers, under a fresh mutation id;
* a delete is started on an entity that is nothing but its base: no
  pending layers, no references, a signal that shows the base, and that
  normalizes to itself under its own id;
* a delete is rolled back while no orphan is due, and for each query it
  was listed in either an earlier delete that was listed there is still
  pending, or no other.
-/

namespace Vertz.Spec

open Vertz.Lib Vertz.Ui.Store

/-- The store and the mutations in flight. -/
structure InFlight where
  store : EntityStore
  pending : List Rollback

/-- A mutation is started, or the pending one at a position fails. -/
inductive MutationStep where
  | start (info : MutationMeta) (mutationId : String)
  | fail (position : ℕ) (now : ℤ)

def MutationStep.apply (relations : Relations) (state : InFlight) : MutationStep → InFlight
  | .start info mutationId =>
    let (store, closure) := OptimisticHandler.apply state.store info mutationId
    { store := store, pending := state.pending ++ closure.toList }
  | .fail position now =>
    match state.pending[position]? with
    | none => state
    | some closure =>
      { store := OptimisticHandler.rollback relations state.store now closure
        pending := state.pending.eraseIdx position }

/-- The state after a run from a store with nothing pending. -/
def mutationRun (relations : Relations) (store : EntityStore) (steps : List MutationStep) :
    InFlight :=
  steps.foldl (MutationStep.apply relations) { store := store, pending := [] }

/-- The entries agree in base, visible value and references. -/
def SameEntry : Option EntityEntry → Option EntityEntry → Prop
  | none, none => True
  | some a, some b =>
    a.base.Same b.base ∧ SameValue a.signal b.signal ∧ a.refCount = b.refCount
  | _, _ => False

instance : (a b : Option EntityEntry) → Decidable (SameEntry a b)
  | none, none => isTrue trivial
  | some a, some b => inferInstanceAs (Decidable
      (a.base.Same b.base ∧ SameValue a.signal b.signal ∧ a.refCount = b.refCount))
  | none, some _ => isFalse id
  | some _, none => isFalse id

/-- Base values, visible values, reference counts and query indices are
those of the other store. -/
def Untouched (a b : EntityStore) : Prop :=
  (∀ type id, SameEntry (a.entryAt type id) (b.entryAt type id)) ∧
    ∀ queryKey, a.queryIndices.get? queryKey = b.queryIndices.get? queryKey

/-- The signal has the last plain value, and that is the base overlaid
with the layers. -/
def UpToDate (entry : EntityEntry) : Prop :=
  entry.lastPlainVisible = entry.signal ∧
    ∃ value, entry.signal = some value ∧ value.Same (overlay entry.base entry.layers)

instance (entry : EntityEntry) : Decidable (UpToDate entry) :=
  decidable_of_iff (entry.lastPlainVisible = entry.signal ∧
      (entry.signal.any fun value => decide (value.Same (overlay entry.base entry.layers))) = true)
    (by simp only [UpToDate, Option.any_eq_true, decide_eq_true_eq])

/-- The entry is nothing but its base. -/
structure OnlyBase (relations : Relations) (type id : String) (entry : EntityEntry) : Prop where
  layers : entry.layers = Record.empty
  refCount : entry.refCount = 0
  upToDate : UpToDate entry
  own : idOf entry.base = id
  bare : Bare relations type entry.base

instance (relations : Relations) (type id : String) (entry : EntityEntry) :
    Decidable (OnlyBase relations type id entry) :=
  decidable_of_iff (entry.layers = Record.empty ∧ entry.refCount = 0 ∧ UpToDate entry ∧
      idOf entry.base = id ∧ Bare relations type entry.base)
    ⟨fun ⟨layers, refCount, upToDate, own, bare⟩ => ⟨layers, refCount, upToDate, own, bare⟩,
      fun h => ⟨h.layers, h.refCount, h.upToDate, h.own, h.bare⟩⟩

/-- The closure restores the index of the query. -/
def restoredIndex (queryKey : String) : Rollback → Option (List String)
  | .rollbackLayer _ _ _ => none
  | .restoreOptimistic _ _ _ indexSnapshot => indexSnapshot.get? queryKey

/-- The mutation can be started on the entry. -/
def CarefulStart (relations : Relations) (info : MutationMeta) (mutationId id : String)
    (entry : EntityEntry) : Prop :=
  match info.kind with
  | .create => True
  | .update => info.body.isSome → UpToDate entry ∧ entry.layers.get? mutationId = none
  | .delete => OnlyBase relations info.entityType id entry

/-- No orphan of the store is due. -/
def NoOrphanDue (store : EntityStore) (now : ℤ) : Prop :=
  ∀ typeMap ∈ store._entities.entries, ∀ e ∈ typeMap.2.entries,
    e.2.evictable EntityStore.defaultMaxAge now = false

/-- The delete at a position can be taken back. -/
def CarefulRestore (state : InFlight) (position : ℕ) (now : ℤ) (entitySnapshot : Option Entity)
    (indexSnapshot : QueryResultIndex) : Prop :=
  (entitySnapshot.isSome → NoOrphanDue state.store now) ∧
    ∀ queryKey ∈ indexSnapshot.keys,
      (∃ earlier ∈ state.pending.take position, (restoredIndex queryKey earlier).isSome) ∨
      ∀ other ∈ state.pending.eraseIdx position, restoredIndex queryKey other = none

/-- The store can take the step back. -/
def MutationStep.Careful (relations : Relations) (state : InFlight) : MutationStep → Prop
  | .start info mutationId =>
    ∀ id ∈ OptimisticHandler.truthyId info.id, ∀ entry ∈ state.store.entryAt info.entityType id,
      CarefulStart relations info mutationId id entry
  | .fail position now =>
    ∀ closure ∈ state.pending[position]?,
      match closure with
      | .rollbackLayer _ _ _ => True
      | .restoreOptimistic _ _ entitySnapshot indexSnapshot =>
        CarefulRestore state position now entitySnapshot indexSnapshot

instance (relations : Relations) (info : MutationMeta) (mutationId id : String)
    (entry : EntityEntry) : Decidable (CarefulStart relations info mutationId id entry) := by
  unfold CarefulStart
  cases info.kind <;> infer_instance

instance (store : EntityStore) (now : ℤ) : Decidable (NoOrphanDue store now) := by
  unfold NoOrphanDue
  infer_instance

instance (state : InFlight) (position : ℕ) (now : ℤ) (entitySnapshot : Option Entity)
    (indexSnapshot : QueryResultIndex) :
    Decidable (CarefulRestore state position now entitySnapshot indexSnapshot) := by
  unfold CarefulRestore
  infer_instance

instance (relations : Relations) (state : InFlight) :
    (step : MutationStep) → Decidable (step.Careful relations state)
  | .start info mutationId => inferInstanceAs (Decidable
      (∀ id ∈ OptimisticHandler.truthyId info.id, ∀ entry ∈ state.store.entryAt info.entityType id,
        CarefulStart relations info mutationId id entry))
  | .fail position now =>
    have (closure : Rollback) : Decidable (match closure with
        | .rollbackLayer _ _ _ => True
        | .restoreOptimistic _ _ entitySnapshot indexSnapshot =>
          CarefulRestore state position now entitySnapshot indexSnapshot) := by
      cases closure <;> infer_instance
    inferInstanceAs (Decidable (∀ closure ∈ state.pending[position]?, match closure with
      | .rollbackLayer _ _ _ => True
      | .restoreOptimistic _ _ entitySnapshot indexSnapshot =>
        CarefulRestore state position now entitySnapshot indexSnapshot))

end Vertz.Spec

/-!
## What a payload says of its entities

`occurrences` lists the entities of a payload, each before those nested in
it. `unrepeated` leaves out the occurrences whose key was met before, at
an entity with relations, with all that is nested in them.

What is stored of a field is its value with relations replaced by
ids. `NothingLost` is the promise of `merge`, whatever the store holds, and
`RepeatsAddNothing` what it needs of the payload.
-/

namespace Vertz.Spec

open Vertz.Ui.Store

/-- What `merge` is called with: an object with a string id. -/
structure Payload where
  data : Entity
  id : String
  hasId : field data "id" = .str id

/-- An entity of a payload. -/
structure Occurrence where
  type : String
  data : Entity
  deriving DecidableEq

namespace Occurrence

def id (o : Occurrence) : String := idOf o.data

def key (o : Occurrence) : String := visitKey o.type o.id

def stored (relations : Relations) (o : Occurrence) (name : String) : Js :=
  match relations o.type with
  | none => field o.data name
  | some schema => storedField schema name (field o.data name)

end Occurrence

/-- The entity as `merge` stores it. -/
def storedEntity (relations : Relations) (o : Occurrence) : Entity :=
  (normalizeEntity relations o.type o.data).normalized

/-- The entities in one relation field. -/
def entitiesIn (data : Entity) (e : String × RelationFieldDef) : List Occurrence :=
  match e.2.type, field data e.1 with
  | .one, value => (nestedEntity value).toList.map fun n => ⟨e.2.entity, n.1⟩
  | .many, .arr elements =>
    elements.filterMap fun value => (nestedEntity value).map fun n => ⟨e.2.entity, n.1⟩
  | .many, _ => []

/-- The entities nested directly in an entity. -/
def nested (relations : Relations) (o : Occurrence) : List Occurrence :=
  match relations o.type with
  | none => []
  | some schema => schema.entries.flatMap (entitiesIn o.data)

def occurrencesTo (relations : Relations) : ℕ → Occurrence → List Occurrence
  | 0, _ => []
  | depth + 1, o => o :: (nested relations o).flatMap (occurrencesTo relations depth)

/-- The entities of a payload, in the order of the payload. -/
def occurrences (relations : Relations) (o : Occurrence) : List Occurrence :=
  occurrencesTo relations (Js.depthEntries o.data.entries + 1) o

/-- The next entity: left out when its key was met. -/
def meet (below : List String → Occurrence → List Occurrence × List String)
    (acc : List Occurrence × List String) (c : Occurrence) : List Occurrence × List String :=
  if c.key ∈ acc.2 then acc
  else (acc.1 ++ c :: (below acc.2 c).1, (below acc.2 c).2)

/-- The occurrences below an entity that repeat none, and the keys met. -/
def belowTo (relations : Relations) : ℕ → List String → Occurrence → List Occurrence × List String
  | 0, met, _ => ([], met)
  | depth + 1, met, o =>
    match relations o.type with
    | none => ([], met)
    | some _ => (nested relations o).foldl (meet (belowTo relations depth)) ([], o.key :: met)

def unrepeated (relations : Relations) (o : Occurrence) : List Occurrence :=
  o :: (belowTo relations (Js.depthEntries o.data.entries + 1) [] o).1

/-- What the occurrences of an entity say of a field, in turn. -/
def said (relations : Relations) (os : List Occurrence) (type id name : String) : List Js :=
  os.filterMap fun o =>
    if o.type = type ∧ o.id = id ∧ o.stored relations name ≠ .undefined then
      some (o.stored relations name)
    else none

def lastSaid (relations : Relations) (os : List Occurrence) (type id name : String) : Option Js :=
  (said relations os type id name).getLast?

/-- A field of the base of an entity. -/
def baseField (store : EntityStore) (type id name : String) : Js :=
  match store.entryAt type id with
  | none => .undefined
  | some entry => field entry.base name

/-- The base of every entity of the payloads gets every field of each of
its occurrences, the later ones winning. -/
def NothingLost (relations : Relations) (type : String) (items : List Payload) : Prop :=
  ∀ (store : EntityStore) (now : ℤ) (type' id name : String) (value : Js),
    lastSaid relations (items.flatMap fun item => occurrences relations ⟨type, item.data⟩)
      type' id name = some value →
    baseField (store.merge relations type (items.map Payload.data) now) type' id name = value

/-- What is said last of a field is said outside the repeated occurrences. -/
def RepeatsAddNothing (relations : Relations) (type : String) (items : List Payload) : Prop :=
  ∀ type' id name value,
    lastSaid relations (items.flatMap fun item => occurrences relations ⟨type, item.data⟩)
      type' id name = some value →
    lastSaid relations (items.flatMap fun item => unrepeated relations ⟨type, item.data⟩)
      type' id name = some value

end Vertz.Spec

/-!
## What a reference is resolved to

`resolveWithin` resolves an entity from the store and its ancestors alone:
a reference is cut at an entity that is its own ancestor, and nowhere else.
`references` lists the entities that it comes to, each with its ancestors.

An entity is `Flat` when there is nothing to resolve in it. `SharedFlat`
is what the promise of `resolveReferences` needs: an entity that is come to
again, and not below itself, is flat.

An `Arrival` is a payload tree, none of whose entities is below itself or
occurs with two contents, and a store that knows none of them.
-/

namespace Vertz.Spec

open Vertz.Ui.Store

/-- The bound is that of `resolveReferences`. -/
def resolveWithin (relations : Relations) (store : EntityStore) :
    ℕ → List String → Occurrence → Entity
  | 0, _, o => o.data
  | fuel + 1, ancestors, o =>
    match relations o.type with
    | none => o.data
    | some schema =>
      if o.key ∈ ancestors then o.data
      else
        let nest (type : String) (entity : Entity) (_ : Unit) : Entity × Unit :=
          (resolveWithin relations store fuel (o.key :: ancestors) ⟨type, entity⟩, ())
        (resolveFields nest store schema o.data ()).1

/-- The value of a reference depends on the store, the entity and its
ancestors, and is cut exactly at an entity below itself. -/
def ResolvesByAncestors (relations : Relations) (store : EntityStore) (o : Occurrence) : Prop :=
  (resolveReferences relations o.data o.type store).1 =
    resolveWithin relations store (store.valueKeys.length + 2) [] o

def referredElement (store : EntityStore) (type : String) : Js → List Occurrence
  | .str id => (store.value type id).toList.map fun entity => ⟨type, entity⟩
  | _ => []

/-- The entities that one relation field refers to. -/
def referredIn (store : EntityStore) (data : Entity) (e : String × RelationFieldDef) :
    List Occurrence :=
  match e.2.type, field data e.1 with
  | .one, value => referredElement store e.2.entity value
  | .many, .arr elements => elements.flatMap (referredElement store e.2.entity)
  | .many, _ => []

def referred (relations : Relations) (store : EntityStore) (o : Occurrence) : List Occurrence :=
  match relations o.type with
  | none => []
  | some schema => schema.entries.flatMap (referredIn store o.data)

/-- The entities that `resolveWithin` comes to, with their ancestors. -/
def referencesTo (relations : Relations) (store : EntityStore) :
    ℕ → List String → Occurrence → List (Occurrence × List String)
  | 0, _, _ => []
  | fuel + 1, ancestors, o =>
    (o, ancestors) ::
      if o.key ∈ ancestors then []
      else (referred relations store o).flatMap
        (referencesTo relations store fuel (o.key :: ancestors))

def references (relations : Relations) (store : EntityStore) (o : Occurrence) :
    List (Occurrence × List String) :=
  referencesTo relations store (store.valueKeys.length + 2) [] o

def isObject : Js → Bool
  | .obj _ => true
  | .arr _ => true
  | _ => false

/-- What a relation field has nothing to resolve in. -/
def FlatValue : RelationType → Js → Prop
  | .one, .str _ => False
  | .many, .arr elements => ∀ element ∈ elements, isObject element = true
  | _, _ => True

def Flat (relations : Relations) (o : Occurrence) : Prop :=
  ∀ schema ∈ relations o.type, ∀ e ∈ schema.entries, FlatValue e.2.type (field o.data e.1)

instance (type : RelationType) (value : Js) : Decidable (FlatValue type value) :=
  match type, value with
  | .one, .str _ => isFalse id
  | .many, .arr elements =>
    inferInstanceAs (Decidable (∀ element ∈ elements, isObject element = true))
  | .one, .arr _ | .many, .str _ => isTrue trivial
  | .one, .undefined | .one, .null | .one, .bool _ | .one, .num _ | .one, .obj _ => isTrue trivial
  | .many, .undefined | .many, .null | .many, .bool _ | .many, .num _ | .many, .obj _ =>
    isTrue trivial

instance (relations : Relations) (o : Occurrence) : Decidable (Flat relations o) := by
  unfold Flat
  infer_instance

/-- An entity with relations that was come to before is its own ancestor or
flat. -/
def SharedFlat (relations : Relations) (store : EntityStore) (o : Occurrence) : Prop :=
  (references relations store o).Pairwise fun a b =>
    (relations a.1.type).isSome → (relations b.1.type).isSome → a.1.key = b.1.key →
      b.1.key ∈ b.2 ∨ Flat relations b.1

/-- An entity in a relation field, with each of its keys once. -/
def Written (value : Js) : Prop := ∀ n ∈ nestedEntity value, value = .obj n.1.entries

def WrittenValue : RelationType → Js → Prop
  | .one, value => Written value
  | .many, .arr elements => ∀ element ∈ elements, Written element
  | .many, _ => True

instance (value : Js) : Decidable (Written value) := by
  unfold Written
  infer_instance

instance (type : RelationType) (value : Js) : Decidable (WrittenValue type value) :=
  match type, value with
  | .one, value => inferInstanceAs (Decidable (Written value))
  | .many, .arr elements => inferInstanceAs (Decidable (∀ element ∈ elements, Written element))
  | .many, .undefined | .many, .null | .many, .bool _ | .many, .num _ | .many, .str _
  | .many, .obj _ => isTrue trivial

/-- A payload and the store it arrives at, which knows none of its
entities. -/
structure Arrival (relations : Relations) where
  type : String
  item : Payload
  store : EntityStore
  now : ℤ
  /-- No relation field holds a bare id. -/
  flat : ∀ o ∈ occurrences relations ⟨type, item.data⟩, Flat relations o
  written : ∀ o ∈ occurrences relations ⟨type, item.data⟩, ∀ schema ∈ relations o.type,
    ∀ e ∈ schema.entries, WrittenValue e.2.type (field o.data e.1)
  /-- No entity is below itself. -/
  acyclic : ∀ o ∈ occurrences relations ⟨type, item.data⟩, ∀ c ∈ nested relations o,
    ∀ below ∈ occurrences relations c, below.key ≠ o.key
  /-- Occurrences of one entity are equal. -/
  coherent : ∀ o ∈ occurrences relations ⟨type, item.data⟩,
    ∀ o' ∈ occurrences relations ⟨type, item.data⟩, o.key = o'.key → o = o'
  unknown : ∀ o ∈ occurrences relations ⟨type, item.data⟩, store.entryAt o.type o.id = none

namespace Arrival

variable {relations : Relations}

def root (a : Arrival relations) : Occurrence := ⟨a.type, a.item.data⟩

def merged (a : Arrival relations) : EntityStore :=
  a.store.merge relations a.type [a.item.data] a.now

/-- Resolving the merged root gives the payload again. -/
def RoundTrips (a : Arrival relations) : Prop :=
  ∃ root, a.merged.value a.type a.item.id = some root ∧
    (resolveReferences relations root a.type a.merged).1 = a.item.data

end Arrival

end Vertz.Spec
