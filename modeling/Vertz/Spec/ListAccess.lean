import Vertz.Server.Entity.VertzqlParser

/-!
# `Vertz.Spec.ListAccess`: what `list` may return

Every row `list` returns should satisfy the access rule. The user's
filter is spread over the rule's conditions, so what holds of the
returned rows whatever the user asks for is what the filter cannot
replace (`fixedWhere`).
-/

namespace Vertz.Spec

open Vertz.Lib
open Vertz.Db
open Vertz.Db.Sql
open Vertz.Server.Entity

variable (b : Backend) (entity : EntityDefinition) (options : CrudPipelineOptions)

/-- The rule of `list` allows the row, all of it evaluated in memory. -/
def Allowed (ctx : BaseContext) (row : SqlRow) : Prop :=
  enforceAccess "list" entity.access ctx (mapRow (getColumnNames entity.table) row)
    (buildAccessOptions options ctx) false = .ok ()

/-- A key the tenant filters set after the user's filter. -/
def tenantKey (key : String) : Bool :=
  match options.tenantChain, options.queryParentIds with
  | some chain, some _ => key == chain.firstHop.foreignKey
  | some _, none => false
  | none, _ => entity.tenantScoped && key == entity.tenantColumnOr

/-- A key the dialect can read; a JSON path needs its support. -/
def readableKey (dialect : Dialect) (key : String) : Bool :=
  key == "OR" || key == "AND" || key == "NOT" || (resolveColumnRef key none dialect).isOk

/-- A key whose condition the user's filter can replace by another one. -/
def settable (key : String) : Bool :=
  !(hiddenKeys entity.table).contains key && !tenantKey entity options key &&
    readableKey b.dialect key

/-- The conditions the user's filter cannot replace: those of the rule on
hidden columns or under keys the dialect cannot read, and over them the
tenant filters. -/
def fixedWhere (ctx : BaseContext) (store : Store) : Record Js :=
  let conditions := (extractWhereConditions "list" entity.access ctx).getD .empty
  (withIndirect options ctx store
    (withTenantFilter entity options ctx
      (some (conditions.filter fun key =>
        (hiddenKeys entity.table).contains key || !readableKey b.dialect key)))).getD .empty

/-- A row of the table that the fixed conditions select. -/
def Reachable (ctx : BaseContext) (store : Store) (row : SqlRow) : Prop :=
  row ∈ store entity.table.name ∧
    selects b.engine b.dialect (sqlColumns entity.table) (fixedWhere b entity options ctx store) row

end Vertz.Spec

/-!
## Which columns a query names

A where object is a tree: `OR`, `AND` and `NOT` hold further objects,
every other key names a column by itself, by its SQL name or by a JSON
path into it. A query leaves hidden columns unobserved when no entry of
the tree and no sort key names one.
-/

namespace Vertz.Spec

open Vertz.Lib
open Vertz.Db
open Vertz.Db.Sql
open Vertz.Server.Entity

mutual

/-- The field entries of a where object, at any depth. -/
def treeEntries : List (String × Js) → List (String × Js)
  | [] => []
  | (key, value) :: es =>
    (if key = "OR" ∨ key = "AND" then operandEntries value
      else if key = "NOT" then nestedEntries value
      else [(key, value)]) ++ treeEntries es

/-- Those of the operands of a logical list. -/
def operandEntries : Js → List (String × Js)
  | .str s => (chars s).flatMap fun c => indexEntries [c]
  | .arr vs => nestedEntriesAll vs
  | _ => []

/-- Those of a value read as a where object. -/
def nestedEntries : Js → List (String × Js)
  | .str s => indexEntries (chars s)
  | .arr vs => indexEntries vs
  | .obj entries => treeEntries entries
  | _ => []

def nestedEntriesAll : List Js → List (String × Js)
  | [] => []
  | v :: vs => nestedEntries v ++ nestedEntriesAll vs

end

/-- The column an entry names, as the database spells it. -/
def entryColumn (e : String × Js) : String :=
  match fieldValue e.2 with
  | .path _ _ => camelToSnake e.1 none
  | _ => (columnRefOf e.1 none).column

section

variable (table : TableDef)

/-- The hidden columns, as the database spells them. -/
def hiddenColumns : List String := (hiddenKeys table).map fun key => camelToSnake key none

/-- No entry under the key names a hidden column. -/
def Quiet (key : String) (value : Js) : Prop :=
  ∀ e ∈ treeEntries [(key, value)], entryColumn e ∉ hiddenColumns table

/-- The where tree and the sort keys of a query name no hidden column. -/
structure Unobserved (query : ListQuery) : Prop where
  filter : ∀ w, query.where_ = some w → ∀ e ∈ treeEntries w.entries,
    entryColumn e ∉ hiddenColumns table
  sort : ∀ order, query.orderBy = some order → ∀ key ∈ order.keys,
    camelToSnake key none ∉ hiddenColumns table

/-- A key that names a hidden column, but is not the column's own: its SQL
name, or a path into it. -/
def Respelled (key column : String) : Prop := key ∉ hiddenKeys table ∧ column ∈ hiddenColumns table

/-- An entry of the user's filter that reaches a hidden column: through a
logical key, or in another spelling. -/
def Reveals (key : String) (value : Js) : Prop :=
  if key = "OR" ∨ key = "AND" ∨ key = "NOT" then
    ∃ e ∈ treeEntries [(key, value)], entryColumn e ∈ hiddenColumns table
  else Respelled table key (entryColumn (key, value))

end

section

variable (entity : EntityDefinition) (options : CrudPipelineOptions) (ctx : BaseContext)

/-- The tenant filters alone. -/
def tenantFilters (store : Store) : Record Js :=
  (withIndirect options ctx store (withTenantFilter entity options ctx (some .empty))).getD .empty

/-- Neither the user's filter and order nor the entity's own conditions,
where the user's filter leaves them, reach a hidden column. -/
structure Unrevealing (opts : ListOptions) (store : Store) : Prop where
  user : ∀ key value, tenantKey entity options key = false →
    (opts.where_.getD .empty).get? key = some value → ¬ Reveals entity.table key value
  sort : ∀ key ∈ optionKeys opts.orderBy, ¬ Respelled entity.table key (camelToSnake key none)
  rule : ∀ key value, tenantKey entity options key = false →
    (opts.where_.getD .empty).get? key = none →
    ((extractWhereConditions "list" entity.access ctx).getD .empty).get? key = some value →
      Quiet entity.table key value
  tenant : ∀ key value, (tenantFilters entity options ctx store).get? key = some value →
    Quiet entity.table key value

end

end Vertz.Spec
