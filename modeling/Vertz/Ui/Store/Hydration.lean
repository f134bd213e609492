import Vertz.Ui.Store.EntityStore

/-!
# `Vertz.Ui.Store.Hydration`: the store as JSON

`dehydrate` and `hydrate` of `packages/ui/src/store/entity-store.ts`. The
server serializes the bases of its entries and its query indices; the
client merges them into its own store.

A key that is assigned to an object literal is lost when it is
`__proto__`.
-/

namespace Vertz.Ui.Store

open Vertz.Lib

structure SerializedStore where
  entities : Record (Record Entity)
  /-- The ids of each query. -/
  queries : Option (Record (List String))

section Collect

variable {α β : Type}

/-- `record[key] = value` on an object literal. -/
def assign (record : Record β) (key : String) (value : β) : Record β :=
  if key = "__proto__" then record else record.insert key value

/-- Assign what a function makes of each entry, unless it is nothing. -/
def collect (record : Record α) (f : α → Option β) : Record β :=
  record.entries.foldl
    (fun acc e =>
      match f e.2 with
      | some value => assign acc e.1 value
      | none => acc)
    Record.empty

theorem get?_assign (record : Record β) (key key' : String) (value : β) :
    (assign record key value).get? key' =
      if key = key' ∧ key ≠ "__proto__" then some value else record.get? key' := by
  rw [assign]
  by_cases hproto : key = "__proto__"
  · simp [hproto]
  · simp [hproto, Record.get?_insert]

theorem get?_collect (record : Record α) (f : α → Option β) (key : String) :
    (collect record f).get? key =
      if key = "__proto__" then none else (record.get? key).bind f := by
  have hfold : ∀ (es : List (String × α)) (acc : Record β), (es.map Prod.fst).Nodup →
      (es.foldl (fun acc e => match f e.2 with
        | some value => assign acc e.1 value
        | none => acc) acc).get? key =
      (if key = "__proto__" then none else (Record.lookup key es).bind f).or (acc.get? key) := by
    intro es
    induction es with
    | nil => simp [Record.lookup]
    | cons e es ih =>
      intro acc hnodup
      obtain ⟨k, v⟩ := e
      rw [List.map_cons, List.nodup_cons] at hnodup
      rw [List.foldl_cons, ih _ hnodup.2]
      by_cases hkey : k = key
      · subst hkey
        have hout : Record.lookup k es = none := by
          rw [← Option.not_isSome_iff_eq_none, Record.lookup_isSome_iff]
          exact hnodup.1
        by_cases hproto : k = "__proto__"
        · cases hf : f v <;> simp [hproto, get?_assign]
        · cases hf : f v <;> simp [hproto, hout, hf, Record.lookup, get?_assign]
      · cases hf : f v <;> simp [hkey, Record.lookup, get?_assign]
  exact (hfold record.entries Record.empty record.nodup).trans (Option.or_none)

end Collect

namespace EntityStore

/-- Serialize the bases of the entities and the query indices. -/
def dehydrate (store : EntityStore) : SerializedStore :=
  let entities := collect store._entities fun typeMap =>
    let typeEntities := collect typeMap fun entry => some entry.base
    if typeEntities.keys.length > 0 then some typeEntities else none
  let queries := collect store.queryIndices some
  { entities := entities, queries := if queries.keys.length > 0 then some queries else none }

/-- Merge serialized data into the store. -/
def hydrate (relations : Relations) (store : EntityStore) (data : SerializedStore) (now : ℤ) :
    EntityStore :=
  let merged := data.entities.entries.foldl
    (fun s e => s.merge relations e.1 (e.2.entries.map Prod.snd) now) store
  match data.queries with
  | none => merged
  | some queries => queries.entries.foldl (fun s e => s.setIndex e.1 e.2) merged

end EntityStore

/-- The entity that JSON carries. -/
def entityThroughJson (entity : Entity) : Entity :=
  Record.ofList (Js.throughJsonEntries entity.entries)

/-- The data after `JSON.parse(JSON.stringify(data))`. -/
def SerializedStore.throughJson (data : SerializedStore) : SerializedStore :=
  { data with entities := data.entities.mapValues fun type => type.mapValues entityThroughJson }

end Vertz.Ui.Store
