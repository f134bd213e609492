import Vertz.Db.Query.Crud
import Vertz.Db.Sql.FilterObject
import Vertz.Spec.Fetch

/-!
# `Vertz.Db.Adapter`: the database behind the entity layer

`createDatabaseBridgeAdapter` wraps the query layer in the operations of
`EntityDbAdapter`. Reads are statements of the builders, run on a store
of tables.

The driver contributes what no statement says (`Backend`): the engine's
operations and `JSON.parse` of a composite cursor.
-/

namespace Vertz.Db

open Vertz.Lib
open Vertz.Db.Sql
open Vertz.Db.Query
open Vertz.Spec

/-- The tables of a database, by SQL name. -/
abbrev Store := String → List SqlRow

structure Backend where
  engine : Engine
  dialect : Dialect
  /-- `JSON.parse` of a cursor text. -/
  parseCursor : String → Option (Record Js)

/-- The columns of a table, as the database spells them. -/
def sqlColumns (table : TableDef) : List String :=
  table.columns.keys.map fun key => camelToSnake key none

/-- A row of a result: selected under the columns' names, which are then
mapped to camelCase. -/
def mapRow (columns : List String) (row : SqlRow) : Record Js :=
  .ofList (columns.map fun key => (snakeToCamel key none, row (camelToSnake key none)))

/-! ### Statements on a store -/

/-- Run a SELECT on a table; unknown columns and conditions the database
cannot read are its errors. -/
def runSelect (b : Backend) (table : TableDef) (options : SelectOptions) (store : Store) :
    Except String (List SqlRow) :=
  (buildSelect options b.dialect).bind fun r =>
    let s := boundSelect r
    if !knownSelect (sqlColumns table) s then .error "column does not exist"
    else
      match fetch b.engine s (store table.name) with
      | some rows => .ok rows
      | none => .error "syntax error"

/-- The window column of a SELECT: how many rows its WHERE admits. -/
def windowCount (b : Backend) (table : TableDef) (options : SelectOptions) (store : Store) :
    Option ℕ :=
  match buildSelect options b.dialect with
  | .error _ => none
  | .ok r =>
    let s := boundSelect r
    if s.withCount then
      (readWheres s.wheres).map fun c =>
        ((store table.name).filter (admitted b.engine c)).length
    else none

/-- The rows and the total. Every row has the window column, and the
first one is read. -/
def listAndCount (b : Backend) (table : TableDef) (options : ListArgs) (store : Store) :
    Except String (List (Record Js) × ℕ) :=
  let select := listOptions table options true
  (runSelect b table select store).map fun rows =>
    match rows.map fun row => (row, windowCount b table select store) with
    | [] => ([], 0)
    | (row, totalCount) :: rows =>
      let selected := resolveSelectColumns table options.select
      -- without a column the SELECT is of `*`; the count's names are stripped
      let columns := (if selected.isEmpty then sqlColumns table else selected).filter fun c =>
        c != "totalCount" && c != "total_count"
      (((row, totalCount) :: rows).map fun r => mapRow columns r.1, totalCount.getD 0)

/-! ### The adapter -/

structure ListQuery where
  where_ : Option (Record Js)
  orderBy : Option (Record SortDir)
  limit : Option ℚ
  after : Option String

/-- `{ id: after }`, or the parsed object when the text starts with a
brace. -/
def cursorOf (b : Backend) (after : String) : Except String (Record Js) :=
  if after.toList.head? = some '\x7b' then
    match b.parseCursor after with
    | some cursor => .ok cursor
    | none => .error "SyntaxError: invalid cursor"
  else .ok (.ofList [("id", .str after)])

def optionalFilter (where_ : Option (Record Js)) : Except String (Option WhereFilter) :=
  match where_ with
  | none => .ok none
  | some w => (whereFilter w).map some

def optionalCursor (b : Backend) (after : Option String) : Except String (Option (Record Js)) :=
  match after with
  | none => .ok none
  | some "" => .ok none
  | some text => (cursorOf b text).map some

/-- `listAndCount` without the count. -/
def adapterList (b : Backend) (table : TableDef) (query : ListQuery) (store : Store) :
    Except String (List SqlRow) :=
  (optionalCursor b query.after).bind fun cursor =>
  (optionalFilter query.where_).bind fun where_ =>
    runSelect b table
      { table := table.name
        columns := some (getDefaultColumns table)
        where_
        orderBy := query.orderBy
        limit := query.limit
        offset := none
        withCount := true
        cursor
        take := none
        casingOverrides := none }
      store

end Vertz.Db
