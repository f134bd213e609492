import Vertz.Db.Sql.Update

/-!
# `Vertz.Db.Sql.Insert`: the INSERT statement builder

One or many rows of VALUES, with an optional ON CONFLICT clause. The
columns are the keys of the first row.
-/

namespace Vertz.Db.Sql

open Vertz.Lib

inductive ConflictAction where
  | nothing
  | update
  deriving DecidableEq, Repr

structure OnConflictOptions where
  columns : List String
  action : ConflictAction
  updateColumns : Option (List String)
  /-- Explicit values of the SET list, for upsert. -/
  updateValues : Option (Record SetValue)

structure InsertOptions where
  table : String
  data : List (Record Param)
  returning : Option Returning
  onConflict : Option OnConflictOptions
  nowColumns : List String

/-- An ON CONFLICT clause; `excluded` assigns each column the value of the
row that was not inserted. -/
inductive ConflictClause (H : Type) where
  | nothing (columns : List String)
  | set (columns : List String) (sets : List (SetClause H))
  | excluded (columns : List String) (sets : List String)

/-- An INSERT statement. A tuple has the text of one value for each
column. -/
inductive InsertSql (H : Type) where
  | defaultValues (table : String)
  | values (table : String) (columns : List String) (tuples : List (List (SqlText H)))
      (onConflict : Option (ConflictClause H)) (returning : Option Returning)

structure InsertResult where
  sql : InsertSql ℕ
  params : List Param

/-! ### The builder -/

/-- `row[key]`. -/
def rowValue (row : Record Param) (key : String) : Param :=
  (row.get? key).getD (.value .undefined)

/-- One placeholder and the parameters it pushes, after `allParams`. -/
def buildCell (nowColumns : List String) (dialect : Dialect) (key : String) (value : Param)
    (allParams : List Param) : SqlText ℕ × List Param :=
  if nowColumns.contains key && isNowSentinel value then ([.text dialect.now], allParams)
  else
    let allParams := allParams ++ [value]
    ([.hole allParams.length], allParams)

/-- The loop over the columns' keys, for one row. -/
def buildTuple (nowColumns : List String) (dialect : Dialect) (row : Record Param) :
    List String → List Param → List (SqlText ℕ) × List Param
  | [], allParams => ([], allParams)
  | key :: keys, allParams =>
    let (cell, allParams) := buildCell nowColumns dialect key (rowValue row key) allParams
    let (cells, allParams) := buildTuple nowColumns dialect row keys allParams
    (cell :: cells, allParams)

/-- The loop over the rows. -/
def buildTuples (nowColumns : List String) (dialect : Dialect) (keys : List String) :
    List (Record Param) → List Param → List (List (SqlText ℕ)) × List Param
  | [], allParams => ([], allParams)
  | row :: rows, allParams =>
    let (tuple, allParams) := buildTuple nowColumns dialect row keys allParams
    let (tuples, allParams) := buildTuples nowColumns dialect keys rows allParams
    (tuple :: tuples, allParams)

/-- The SET loop of ON CONFLICT: an expression is composed, any other
value is a parameter. -/
def buildConflictSets (updateVals : Record SetValue) (dialect : Dialect) :
    List String → List Param → List (SetClause ℕ) × List Param
  | [], allParams => ([], allParams)
  | c :: cs, allParams =>
    let value := (updateVals.get? c).getD (.param (.value .undefined))
    -- no column is a now column here
    let (clause, params) := buildSet [] dialect c value allParams.length
    let (rest, allParams) := buildConflictSets updateVals dialect cs (allParams ++ params)
    (clause :: rest, allParams)

def buildOnConflict (onConflict : OnConflictOptions) (dialect : Dialect)
    (allParams : List Param) : Option (ConflictClause ℕ) × List Param :=
  let conflictCols := onConflict.columns.map fun c => camelToSnake c none
  match onConflict.action, onConflict.updateColumns with
  | .nothing, _ => (some (.nothing conflictCols), allParams)
  | .update, none => (none, allParams)
  | .update, some updateColumns =>
    match onConflict.updateValues with
    | some updateVals =>
      let (sets, allParams) := buildConflictSets updateVals dialect updateColumns allParams
      (some (.set conflictCols sets), allParams)
    | none =>
      (some (.excluded conflictCols (updateColumns.map fun c => camelToSnake c none)),
        allParams)

def buildInsert (options : InsertOptions) (dialect : Dialect) : InsertResult :=
  match options.data with
  | [] => ⟨.defaultValues options.table, []⟩
  | firstRow :: rows =>
    let keys := firstRow.keys
    let (tuples, allParams) :=
      buildTuples options.nowColumns dialect keys (firstRow :: rows) []
    let (conflict, allParams) :=
      match options.onConflict with
      | none => (none, allParams)
      | some onConflict => buildOnConflict onConflict dialect allParams
    ⟨.values options.table (keys.map fun k => camelToSnake k none) tuples conflict
      options.returning, allParams⟩

end Vertz.Db.Sql
