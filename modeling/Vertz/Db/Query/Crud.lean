import Vertz.Db.Schema
import Vertz.Db.Sql.Insert

/-!
# `Vertz.Db.Query.Crud`: the queries

The SELECT of a listing, `updateMany` and `deleteMany` up to the
statement they execute, and the data `create` and `update` hand to their
statement.
-/

namespace Vertz.Db.Query

open Vertz.Lib
open Vertz.Db.Sql

/-- A result row under the camelCase names of its columns. -/
def mapRow {α : Type} (row : Record α) : Record α :=
  Record.ofList (row.entries.map fun e => (snakeToCamel e.1 none, e.2))

/-! ### Reads -/

/-- `select`: annotations to leave out, or the columns to pick. -/
inductive SelectOption where
  | not (annotations : List String)
  | pick (columns : Record Bool)

def resolveSelectColumns (table : TableDef) : Option SelectOption → List String
  | none => getDefaultColumns table
  | some (.not annotations) => getColumnsWithoutAnnotations table annotations
  | some (.pick columns) => (columns.entries.filter Prod.snd).map Prod.fst

structure ListArgs where
  where_ : Option WhereFilter := none
  select : Option SelectOption := none
  orderBy : Option (Record SortDir) := none
  limit : Option ℚ := none
  offset : Option ℚ := none
  cursor : Option (Record Js) := none
  take : Option ℚ := none

/-- The SELECT of `list` and `listAndCount`. -/
def listOptions (table : TableDef) (options : ListArgs) (withCount : Bool) : SelectOptions where
  table := table.name
  columns := some (resolveSelectColumns table options.select)
  where_ := options.where_
  orderBy := options.orderBy
  limit := options.limit
  offset := options.offset
  withCount
  cursor := options.cursor
  take := options.take
  casingOverrides := none

/-! ### Writes -/

/-- Refuse an empty where object. -/
def assertNonEmptyWhere (where_ : WhereFilter) (operation : String) : Except String Unit :=
  if where_.isEmpty then
    .error (operation ++ " requires a non-empty where clause. " ++
      "Passing an empty where object would affect all rows.")
  else .ok ()

/-- Strip readOnly columns, but let autoUpdate columns through when the
user provides a `DbExpr`. -/
def stripReadOnly (table : TableDef) (data : Record SetValue) : Record SetValue :=
  data.filterEntries fun (key, val) =>
    !(getReadOnlyColumns table).contains key ||
      ((getAutoUpdateColumns table).contains key && isDbExpr val)

/-- Set autoUpdate columns to `'now'` unless the user provided a value. -/
def fillAutoUpdate (table : TableDef) (data : Record SetValue) : Record SetValue :=
  (getAutoUpdateColumns table).foldl
    (fun acc col => if (acc.get? col).isSome then acc else acc.insert col (.param (.value (.str "now"))))
    data

/-- Run a column's validator over its value. -/
def runJsonbValidator (table : TableDef) (key : String) (value : SetValue) :
    Except String SetValue :=
  match (table.columns.get? key).bind ColumnMetadata.validator, value with
  | some parse, .param (.value v) =>
    if v.isNullish then .ok value
    else
      match parse v with
      | some parsed => .ok (.param (.value parsed))
      | none => .error ("Validator rejected value at " ++ table.name ++ "." ++ key)
  | _, _ => .ok value

def runJsonbValidators (table : TableDef) (data : Record SetValue) :
    Except String (Record SetValue) :=
  data.entries.foldlM
    (fun out (key, value) => (runJsonbValidator table key value).map fun v => out.insert key v)
    data

/-- SQLite stores jsonb as text: stringify jsonb and json values. -/
def marshalJsonbWritesForSqlite (table : TableDef) (data : Record SetValue) (dialect : Dialect) :
    Record SetValue :=
  if dialect.name != .sqlite then data
  else
    data.entries.foldl
      (fun out (key, value) =>
        match table.columns.get? key, value with
        | some m, .param (.value v) =>
          if (m.sqlType == "jsonb" || m.sqlType == "json") && !v.isNullish then
            out.insert key (.param (.json v))
          else out
        | _, _ => out)
      data

/-- The columns in which `'now'` is the current timestamp. -/
def allNowColumns (table : TableDef) : List String :=
  getTimestampColumns table ++
    (getAutoUpdateColumns table).filter fun c => !(getTimestampColumns table).contains c

/-- Fill in identifiers for the columns with a strategy that have no
value; strategies are only supported on string columns. -/
def fillGeneratedIds (generateId : String → Js) (table : TableDef) (data : Record Js) :
    Except String (Record Js) :=
  table.columns.entries.foldlM
    (fun filled (name, col) =>
      match col.generate with
      | some strategy =>
        match filled.get? name with
        | none => fillGeneratedId generateId name col strategy filled
        | some .undefined => fillGeneratedId generateId name col strategy filled
        | some _ => .ok filled
      | none => .ok filled)
    data
where
  fillGeneratedId (generateId : String → Js) (name : String) (col : ColumnMetadata)
      (strategy : String) (filled : Record Js) : Except String (Record Js) :=
    if col.sqlType == "integer" || col.sqlType == "serial" || col.sqlType == "bigint" then
      .error ("Column \"" ++ name ++ "\" has generate: '" ++ strategy ++ "' but is type '" ++
        col.sqlType ++ "'. ID generation is only supported on string column types " ++
        "(text, uuid, varchar).")
    else .ok (filled.insert name (generateId strategy))

/-- The entries an insert keeps: generated columns, and all that are not
readOnly. -/
def stripReadOnlyInsert (table : TableDef) (data : Record Js) : Record Js :=
  data.filter fun key =>
    ((table.columns.get? key).bind ColumnMetadata.generate).isSome ||
      !(getReadOnlyColumns table).contains key

/-- The data `create` inserts. -/
def createData (generateId : String → Js) (table : TableDef) (data : Record Js)
    (dialect : Dialect) : Except String (Record SetValue) :=
  (fillGeneratedIds generateId table data).bind fun withIds =>
    (runJsonbValidators table
        ((stripReadOnlyInsert table withIds).mapValues fun v => .param (.value v))).bind
      fun validated => .ok (marshalJsonbWritesForSqlite table validated dialect)

/-- The row an INSERT is built from; insert data has no expressions. -/
def insertRow (data : Record SetValue) : Record Param :=
  data.mapValues fun
    | .param p => p
    | .expr _ => .value .undefined

/-- The INSERT of `createMany`; none for no rows. -/
def createMany (generateId : String → Js) (table : TableDef) (data : List (Record Js))
    (dialect : Dialect) : Except String (Option InsertResult) :=
  if data.isEmpty then .ok none
  else
    (data.mapM fun row => (createData generateId table row dialect).map insertRow).bind fun rows =>
      .ok (some (buildInsert
        { table := table.name
          data := rows
          returning := none
          onConflict := none
          nowColumns := getTimestampColumns table }
        dialect))

/-- The data `update` assigns. -/
def updateData (table : TableDef) (data : Record SetValue) (dialect : Dialect) :
    Except String (Record SetValue) :=
  (runJsonbValidators table (fillAutoUpdate table (stripReadOnly table data))).bind
    fun validated => .ok (marshalJsonbWritesForSqlite table validated dialect)

def updateMany (table : TableDef) (where_ : WhereFilter) (data : Record SetValue)
    (dialect : Dialect) : Except String UpdateResult :=
  (assertNonEmptyWhere where_ "updateMany").bind fun _ =>
    (updateData table data dialect).bind fun data =>
      buildUpdate
        { table := table.name
          data
          where_ := some where_
          returning := none
          nowColumns := allNowColumns table }
        dialect

def deleteMany (table : TableDef) (where_ : WhereFilter) (dialect : Dialect) :
    Except String DeleteResult :=
  (assertNonEmptyWhere where_ "deleteMany").bind fun _ =>
    buildDelete { table := table.name, where_ := some where_, returning := none } dialect

end Vertz.Db.Query
