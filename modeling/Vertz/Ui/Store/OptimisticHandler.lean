import Vertz.Ui.Store.EntityStore

/-!
# `Vertz.Ui.Store.OptimisticHandler`: mutations and their events

## Mutation events by entity type

The bus counts the events of each entity type. A subscriber is the number
of the query that listens; its callback is the query's `refetch`, so
`emit` is written where queries are (`Vertz.Ui.Query.Query`), from
`bump` and `subscribers`.
-/

namespace Vertz.Ui.Store

open Vertz.Lib

structure MutationEventBus where
  listeners : List (String × ℕ) := []
  versions : Record ℕ := .empty

namespace MutationEventBus

def getVersion (bus : MutationEventBus) (entityType : String) : ℕ :=
  (bus.versions.get? entityType).getD 0

def subscribe (bus : MutationEventBus) (entityType : String) (callback : ℕ) : MutationEventBus :=
  { bus with listeners := bus.listeners.insert (entityType, callback) }

/-- What `subscribe` returns, for every type the subscriber listens to. -/
def unsubscribe (bus : MutationEventBus) (callback : ℕ) : MutationEventBus :=
  { bus with listeners := bus.listeners.filter fun listener => listener.2 ≠ callback }

def bump (bus : MutationEventBus) (entityType : String) : MutationEventBus :=
  { bus with versions := bus.versions.insert entityType (bus.getVersion entityType + 1) }

/-- The callbacks of an entity type, in the order of their subscription. -/
def subscribers (bus : MutationEventBus) (entityType : String) : List ℕ :=
  (bus.listeners.filter fun listener => listener.1 = entityType).map Prod.snd

@[simp] theorem getVersion_subscribe (bus : MutationEventBus) (entityType : String)
    (callback : ℕ) : (bus.subscribe entityType callback).getVersion = bus.getVersion := rfl

@[simp] theorem getVersion_unsubscribe (bus : MutationEventBus) (callback : ℕ) :
    (bus.unsubscribe callback).getVersion = bus.getVersion := rfl

theorem getVersion_bump (bus : MutationEventBus) (entityType entityType' : String) :
    (bus.bump entityType).getVersion entityType' =
      if entityType = entityType' then bus.getVersion entityType + 1
      else bus.getVersion entityType' := by
  rw [getVersion, bump, Record.get?_insert]
  split <;> rfl

end MutationEventBus

end Vertz.Ui.Store

/-!
## Starting a mutation optimistically

`packages/ui/src/store/optimistic-handler.ts`. `apply` changes the store
before the server has answered and returns the closure that takes the
change back; the closure is a value here (`Rollback`), with what it
captured.
-/

namespace Vertz.Ui.Store

inductive MutationKind where
  | create
  | update
  | delete
  deriving DecidableEq, Repr

structure MutationMeta where
  entityType : String
  kind : MutationKind
  id : Option String
  body : Option Entity

/-- The closure `apply` returns. -/
inductive Rollback where
  | rollbackLayer (entityType id mutationId : String)
  | restoreOptimistic (entityType id : String) (entitySnapshot : Option Entity)
      (indexSnapshot : QueryResultIndex)

namespace OptimisticHandler

/-- `id &&`: present and not empty. -/
def truthyId (id : Option String) : Option String := id.filter fun s => s != ""

/-- Start a mutation: the store, and the closure that takes the change
back. -/
def apply (store : EntityStore) (info : MutationMeta) (mutationId : String) :
    EntityStore × Option Rollback :=
  match info.kind, truthyId info.id, info.body with
  | .update, some id, some body =>
    (store.applyLayer info.entityType id mutationId body,
      some (.rollbackLayer info.entityType id mutationId))
  | .delete, some id, _ =>
    let (read, entitySnapshot) := store.get info.entityType id
    let indexSnapshot := QueryResultIndex.snapshotEntity read.queryIndices id
    (read.removeOptimistic info.entityType id,
      some (.restoreOptimistic info.entityType id entitySnapshot indexSnapshot))
  | _, _, _ => (store, none)

/-- Call the closure. -/
def rollback (relations : Relations) (store : EntityStore) (now : ℤ) : Rollback → EntityStore
  | .rollbackLayer entityType id mutationId => store.rollbackLayer entityType id mutationId
  | .restoreOptimistic entityType _ entitySnapshot indexSnapshot =>
    store.restoreOptimistic relations entityType entitySnapshot indexSnapshot now

end OptimisticHandler

end Vertz.Ui.Store
