import Vertz.Db.Schema

/-!
# `Vertz.Db.Client.TenantGraph`: how tenants scope the models

`computeTenantGraph` reads from the models of a registry, their markers
and their relations, which of them belong to a tenant. A registry is
read through `Object.entries`, in its order, and a table through its
name; of a relation's target only the name is read.

The tenant keys are kept with their entries (`registry[key]!`).
-/

namespace Vertz.Db.Client

open Vertz.Lib

inductive RelationType where
  | one
  | many
  deriving DecidableEq, Repr

structure RelationDef where
  type : RelationType
  /-- The name of the table that `_target` returns. -/
  target : String
  foreignKey : Option String
  deriving DecidableEq, Repr

/-- The foreign key, when it is neither `null` nor empty. -/
def RelationDef.key? (rel : RelationDef) : Option String := rel.foreignKey.filter (· ≠ "")

structure ModelTable extends TableDef where
  /-- Marked `.shared()`. -/
  shared : Bool := false
  /-- Marked `.tenant()`. -/
  tenant : Bool := false

structure ModelRegistryEntry where
  table : ModelTable
  relations : Record RelationDef

abbrev ModelRegistry := Record ModelRegistryEntry

/-- A model with its key. -/
abbrev Model := String × ModelRegistryEntry

/-- The key of the last model with the table. -/
def tableNameToKey (registry : ModelRegistry) (name : String) : Option String :=
  Record.lookupLast name (registry.entries.map fun model => (model.2.table.name, model.1))

/-- One level of the tenant hierarchy; the root has no parent. -/
structure TenantLevel where
  key : String
  tableName : String
  parentFk : Option String
  parentKey : Option String
  depth : ℕ
  deriving DecidableEq, Repr

structure TenantGraph where
  root : Option String
  levels : List TenantLevel
  directlyScoped : List String
  indirectlyScoped : List String
  shared : List String
  deriving DecidableEq, Repr

/-! ### The tenant levels -/

/-- What `parentMap` holds for a tenant key, with the key and its table. -/
structure ParentLink where
  key : String
  tableName : String
  parentKey : String
  fk : String
  deriving DecidableEq, Repr

/-- The parent that a relation of a tenant model leads to. -/
def parentThrough (registry : ModelRegistry) (tenants : List Model) (rel : RelationDef) :
    Option (String × String) :=
  match rel.type, rel.key? with
  | .one, some fk =>
    if rel.target ∈ tenants.map fun model => model.2.table.name then
      match tableNameToKey registry rel.target with
      | some targetKey =>
        if targetKey ≠ "" ∧ targetKey ∈ tenants.map Prod.fst then some (targetKey, fk) else none
      | none => none
    else none
  | _, _ => none

/-- The first relation that leads to a parent counts. -/
def parentLink (registry : ModelRegistry) (tenants : List Model) (model : Model) :
    Option ParentLink :=
  (model.2.relations.entries.findSome? fun rel => parentThrough registry tenants rel.2).map
    fun parent => ⟨model.1, model.2.table.name, parent.1, parent.2⟩

def parentMap (registry : ModelRegistry) (tenants : List Model) : List ParentLink :=
  tenants.filterMap (parentLink registry tenants)

/-- Walk from a key to its child, level by level. -/
def walkLevels (parents : List ParentLink) : ℕ → String → ℕ → List TenantLevel
  | 0, _, _ => []
  | fuel + 1, current, depth =>
    match parents.find? fun link => link.parentKey == current with
    | none => []
    | some child =>
      ⟨child.key, child.tableName, some child.fk, some current, depth⟩ ::
        walkLevels parents fuel child.key (depth + 1)

def quoted (names : List String) (separator : String) : String :=
  separator.intercalate (names.map fun name => "\"" ++ name ++ "\"")

def notAChain (tenants : List Model) : String :=
  "Multiple .tenant() tables (" ++ quoted (tenants.map fun model => model.2.table.name) ", " ++
    ") do not form a single FK chain. " ++
    "Ensure each child .tenant() table has a ref.one relation to its parent .tenant() table."

def maxTenantLevels : ℕ := 4

def tooDeep (levels : List TenantLevel) : String :=
  "Tenant hierarchy exceeds maximum of " ++ toString maxTenantLevels ++ " levels. " ++
    "Found " ++ toString levels.length ++ " levels: " ++
    quoted (levels.map TenantLevel.tableName) " → " ++ "."

def rootLevel (model : Model) : TenantLevel := ⟨model.1, model.2.table.name, none, none, 0⟩

def resolveTenantLevels (registry : ModelRegistry) (tenants : List Model) :
    Except String (List TenantLevel) :=
  match tenants with
  | [model] => .ok [rootLevel model]
  | _ =>
    let parents := parentMap registry tenants
    match tenants.filter fun model => model.1 ∉ parents.map ParentLink.key with
    | [root] =>
      -- two children with one parent are a fork
      if ¬ (parents.map ParentLink.parentKey).Nodup then .error (notAChain tenants)
      else
        let levels := rootLevel root :: walkLevels parents tenants.length root.1 1
        if levels.length ≠ tenants.length then .error (notAChain tenants)
        else if levels.length > maxTenantLevels then .error (tooDeep levels)
        else .ok levels
    | _ => .error (notAChain tenants)

/-! ### The scoped models -/

def tenantAndShared (tableName : String) : String :=
  "Table \"" ++ tableName ++ "\" is marked as both .tenant() and .shared(). " ++
    "A tenant root cannot be shared — it defines the tenant boundary."

/-- The tenant models and the keys of the shared ones. -/
def markedModels : List Model → Except String (List Model × List String)
  | [] => .ok ([], [])
  | model :: models =>
    if model.2.table.shared = true ∧ model.2.table.tenant = true then
      .error (tenantAndShared model.2.table.name)
    else
      (markedModels models).map fun (tenants, shared) =>
        if model.2.table.shared then (tenants, model.1 :: shared)
        else if model.2.table.tenant then (model :: tenants, shared)
        else (tenants, shared)

/-- The names of the `ref.one` relations to a table. -/
def refsTo (entry : ModelRegistryEntry) (tableName : String) : List String :=
  (entry.relations.entries.filter fun rel =>
    rel.2.type == .one && rel.2.target == tableName).map Prod.fst

def severalRefs (key root : String) (refsToRoot : List String) : String :=
  "Model \"" ++ key ++ "\" has " ++ toString refsToRoot.length ++ " relations to tenant root " ++
    "\"" ++ root ++ "\" (" ++ ", ".intercalate refsToRoot ++ "). Mark the table as .shared() " ++
    "if it's cross-tenant and handle scoping manually in your access rules."

/-- The models with one `ref.one` to the root; `skipped` are the tenant
keys and the shared ones. -/
def findDirectlyScoped (root : TenantLevel) (skipped : List String) :
    List Model → Except String (List String)
  | [] => .ok []
  | (key, entry) :: models =>
    if key ∈ skipped then findDirectlyScoped root skipped models
    else
      match refsTo entry root.tableName with
      | [] => findDirectlyScoped root skipped models
      | [_] => (findDirectlyScoped root skipped models).map (key :: ·)
      | refsToRoot => .error (severalRefs key root.key refsToRoot)

/-- The variables of the loop that resolves indirect scoping. -/
structure Scoping where
  indirectlyScoped : List String
  indirectlyScopedNames : List String
  scopedTableNames : List String
  changed : Bool

/-- Whether a `ref.one` relation leads to a scoped table. -/
def refersTo (entry : ModelRegistryEntry) (names : List String) : Bool :=
  entry.relations.entries.any fun rel => rel.2.type == .one && names.contains rel.2.target

/-- One model in a pass of the loop; `skipped` are the tenant keys, the
directly scoped and the shared ones. -/
def scopeModel (skipped : List String) (state : Scoping) (model : Model) : Scoping :=
  if model.1 ∈ skipped ∨ model.2.table.name ∈ state.indirectlyScopedNames then state
  else if refersTo model.2 (state.scopedTableNames ++ state.indirectlyScopedNames) then
    { indirectlyScoped := state.indirectlyScoped ++ [model.1]
      indirectlyScopedNames := state.indirectlyScopedNames ++ [model.2.table.name]
      scopedTableNames := state.scopedTableNames ++ [model.2.table.name]
      changed := true }
  else state

/-- Pass over the models until a pass adds none. -/
def resolveScoping (skipped : List String) (models : List Model) : ℕ → Scoping → Scoping
  | 0, state => state
  | fuel + 1, state =>
    let state := models.foldl (scopeModel skipped) { state with changed := false }
    if state.changed then resolveScoping skipped models fuel state else state

/-- The names of the tables of some of the models. -/
def tableNames (models : List Model) (keys : List String) : List String :=
  (models.filter fun model => keys.contains model.1).map fun model => model.2.table.name

def computeTenantGraph (registry : ModelRegistry) : Except String TenantGraph := do
  let models := registry.entries
  let (tenants, shared) ← markedModels models
  if tenants.isEmpty then return ⟨none, [], [], [], shared⟩
  let levels ← resolveTenantLevels registry tenants
  match levels with
  | [] => return ⟨none, [], [], [], shared⟩
  | root :: _ =>
    let tenantKeys := tenants.map Prod.fst
    let directlyScoped ← findDirectlyScoped root (tenantKeys ++ shared) models
    let scopedTableNames := tableNames models tenantKeys ++ tableNames models directlyScoped
    let state := resolveScoping (tenantKeys ++ directlyScoped ++ shared) models
      (models.length + 1) ⟨[], [], scopedTableNames, false⟩
    return ⟨some root.key, levels, directlyScoped, state.indirectlyScoped, shared⟩

end Vertz.Db.Client
