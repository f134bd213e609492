import Mathlib.Algebra.GroupWithZero.Nat
import Vertz.Db.Client.TenantGraph
import Vertz.Server.Entity.Types

/-!
# `Vertz.Server.Entity.TenantChain`: from an entity to its tenant

`resolveTenantChain` looks for the relations that lead from an indirectly
scoped model to one with a foreign key to the tenant root, breadth first.
The tables on the way are found by their names, of which the last model
with the name has the say.
-/

namespace Vertz.Server.Entity

open Vertz.Db
open Vertz.Db.Client

/-- The chain of some hops and one more. -/
def TenantChain.ofHops (hops : List TenantChainHop) (hop : TenantChainHop)
    (tenantColumn : String) : TenantChain :=
  match hops with
  | [] => ⟨hop, [], tenantColumn⟩
  | firstHop :: moreHops => ⟨firstHop, moreHops ++ [hop], tenantColumn⟩

@[simp] theorem TenantChain.ofHops_hops (hops : List TenantChainHop) (hop : TenantChainHop)
    (tenantColumn : String) : (ofHops hops hop tenantColumn).hops = hops ++ [hop] := by
  cases hops <;> rfl

@[simp] theorem TenantChain.ofHops_tenantColumn (hops : List TenantChainHop)
    (hop : TenantChainHop) (tenantColumn : String) :
    (ofHops hops hop tenantColumn).tenantColumn = tenantColumn := by
  cases hops <;> rfl

/-- The foreign key of the first relation to the root. -/
def resolveTenantFkFromRelations (entry : ModelRegistryEntry) (rootTableName : String) :
    Option String :=
  entry.relations.entries.findSome? fun rel =>
    match rel.2.type, rel.2.key? with
    | .one, some fk => if rel.2.target = rootTableName then some fk else none
    | _, _ => none

def compositeKey (tableName : String) (pkCols : List String) : String :=
  "Tenant chain resolution encountered composite primary key on table \"" ++ tableName ++ "\" " ++
    "[" ++ ", ".intercalate pkCols ++ "]. A composite-PK table cannot be an intermediate hop in " ++
    "the tenant chain because ref.one() creates single-column foreign keys, which cannot " ++
    "reference a composite primary key. The composite-PK table itself CAN be the chain " ++
    "origin (entity). To fix: use a surrogate single-column PK on \"" ++ tableName ++ "\", or " ++
    "restructure the relation chain to avoid traversing through this table."

def resolvePrimaryKey (table : TableDef) (tableName : String) : Except String String :=
  let pkCols := getPrimaryKeyColumns table
  if pkCols.length > 1 then .error (compositeKey tableName pkCols)
  else .ok (pkCols.head?.getD "id")

/-- What the search reads of the graph, with the registry. -/
structure ChainScope where
  registry : ModelRegistry
  root : String
  rootTableName : String
  /-- The root, the other levels and the directly scoped models. -/
  directlyScopedKeys : List String
  indirectlyScopedKeys : List String
  sharedKeys : List String

/-- The tenant column when a relation leads to a model: its own foreign
key to the root, or the relation's when the model is the root. -/
def tenantColumnAt (scope : ChainScope) (targetKey : String) (targetEntry : ModelRegistryEntry)
    (foreignKey : String) : Option String :=
  if targetKey ∈ scope.directlyScopedKeys ∧ targetKey ≠ scope.root then
    resolveTenantFkFromRelations targetEntry scope.rootTableName
  else if targetKey = scope.root then some foreignKey
  else none

/-- What one relation comes to. -/
inductive Followed where
  | skipped
  | reached (chain : TenantChain)
  | queued (key : String) (hops : List TenantChainHop)

/-- Whether a target is not looked at. -/
def passedOver (scope : ChainScope) (visited : List String) (targetKey : String) : Prop :=
  targetKey = "" ∨ targetKey ∈ visited ∨ targetKey ∈ scope.sharedKeys ∨
    (targetKey ∉ scope.directlyScopedKeys ∧ targetKey ∉ scope.indirectlyScopedKeys)

instance (scope : ChainScope) (visited : List String) (targetKey : String) :
    Decidable (passedOver scope visited targetKey) := by
  unfold passedOver
  infer_instance

/-- The body of the loops over the relations of a model. -/
def follow (scope : ChainScope) (visited : List String) (hops : List TenantChainHop)
    (rel : RelationDef) : Except String Followed :=
  match rel.type, rel.key? with
  | .one, some fk =>
    match tableNameToKey scope.registry rel.target with
    | none => .ok .skipped
    | some targetKey =>
      if passedOver scope visited targetKey then .ok .skipped
      else
        match scope.registry.get? targetKey with
        | none => .ok .skipped
        | some targetEntry => do
            let targetPk ← resolvePrimaryKey targetEntry.table.toTableDef rel.target
            let hop : TenantChainHop := ⟨rel.target, fk, targetPk⟩
            match tenantColumnAt scope targetKey targetEntry fk with
            | some tenantColumn => return .reached (.ofHops hops hop tenantColumn)
            | none => return .queued targetKey (hops ++ [hop])
  | _, _ => .ok .skipped

/-- A model of the queue, with the hops to it. -/
abbrev QueueItem := String × List TenantChainHop

/-- The loop over the relations of a model: it ends at a chain, or with
what it adds to the queue. -/
def followAll (scope : ChainScope) (visited : List String) (hops : List TenantChainHop) :
    List (String × RelationDef) → List QueueItem → Except String (TenantChain ⊕ List QueueItem)
  | [], queue => .ok (.inr queue)
  | rel :: rels, queue => do
      match ← follow scope visited hops rel.2 with
      | .skipped => followAll scope visited hops rels queue
      | .reached chain => return .inl chain
      | .queued key newHops => followAll scope visited hops rels (queue ++ [(key, newHops)])

/-- The loop over the queue; nothing is left of it without fuel. -/
def searchChain (scope : ChainScope) :
    ℕ → List String → List QueueItem → Option (Except String (Option TenantChain))
  | 0, _, _ => none
  | _ + 1, _, [] => some (.ok none)
  | fuel + 1, visited, (currentKey, hops) :: queue =>
    if currentKey ∈ visited then searchChain scope fuel visited queue
    else
      match scope.registry.get? currentKey with
      | none => searchChain scope fuel (currentKey :: visited) queue
      | some entry =>
        match followAll scope (currentKey :: visited) hops entry.relations.entries queue with
        | .error message => some (.error message)
        | .ok (.inl chain) => some (.ok (some chain))
        | .ok (.inr queue) => searchChain scope fuel (currentKey :: visited) queue

/-- Every relation is queued at most once. -/
def relationCount (registry : ModelRegistry) : ℕ :=
  (registry.entries.map fun model => model.2.relations.entries.length).sum

def chainScope (tenantGraph : TenantGraph) (registry : ModelRegistry) (root : String)
    (rootTableName : String) : ChainScope where
  registry
  root
  rootTableName
  directlyScopedKeys :=
    tenantGraph.directlyScoped ++ [root] ++ tenantGraph.levels.map Db.Client.TenantLevel.key
  indirectlyScopedKeys := tenantGraph.indirectlyScoped
  sharedKeys := tenantGraph.shared

/-- `none` is a search that does not end. -/
def resolveTenantChain (entityKey : String) (tenantGraph : TenantGraph)
    (registry : ModelRegistry) : Option (Except String (Option TenantChain)) :=
  if entityKey ∉ tenantGraph.indirectlyScoped then some (.ok none)
  else
    match tenantGraph.root with
    | none => some (.ok none)
    | some root =>
      match registry.get? root, registry.get? entityKey with
      | some rootEntry, some entityEntry =>
        let scope := chainScope tenantGraph registry root rootEntry.table.name
        match followAll scope [entityKey] [] entityEntry.relations.entries [] with
        | .error message => some (.error message)
        | .ok (.inl chain) => some (.ok (some chain))
        | .ok (.inr queue) =>
          searchChain scope (relationCount registry + 1) [entityKey] queue
      | _, _ => some (.ok none)

end Vertz.Server.Entity
