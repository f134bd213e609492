import Vertz.Js

/-!
# `Vertz.Db.Schema`: table definitions

A table is its name and its columns' metadata, and the helpers that read
column lists off it.
-/

namespace Vertz.Db

open Vertz.Lib

/-- What a schema finds wrong with a value. -/
structure SchemaIssue where
  message : String
  code : String

structure ColumnMetadata where
  sqlType : String
  primary : Bool
  nullable : Bool
  hasDefault : Bool
  /-- The strategy an identifier is generated by. -/
  generate : Option String
  annotations : List String
  isReadOnly : Bool
  isAutoUpdate : Bool
  /-- A jsonb column's validator: the parsed value, or a rejection. -/
  validator : Option (Js → Option Js)
  /-- The schema `columnToSchema` derives: the parsed value, or what is
  wrong with it. -/
  schema : Js → Except SchemaIssue Js

/-- A column that only has a type. -/
def ColumnMetadata.plain (sqlType : String) : ColumnMetadata where
  sqlType
  primary := false
  nullable := false
  hasDefault := false
  generate := none
  annotations := []
  isReadOnly := false
  isAutoUpdate := false
  validator := none
  schema := .ok

/-- A table; `primaryKey` is set when it is declared for the table and
not by the columns. -/
structure TableDef where
  name : String
  columns : Record ColumnMetadata
  primaryKey : Option (List String) := none

/-- The names of the columns whose metadata passes a test. -/
def TableDef.columnsWhere (table : TableDef) (p : ColumnMetadata → Bool) : List String :=
  (table.columns.entries.filter fun e => p e.2).map Prod.fst

def getColumnNames (table : TableDef) : List String := table.columns.keys

def getColumnsWithoutAnnotations (table : TableDef) (annotations : List String) : List String :=
  let allAnnotations :=
    if annotations.contains "hidden" then annotations else annotations ++ ["hidden"]
  table.columnsWhere fun m => !allAnnotations.any fun f => m.annotations.contains f

def getDefaultColumns (table : TableDef) : List String := getColumnsWithoutAnnotations table []

def getTimestampColumns (table : TableDef) : List String :=
  table.columnsWhere fun m => m.sqlType == "timestamp with time zone"

def getPrimaryKeyColumns (table : TableDef) : List String :=
  table.columnsWhere fun m => m.primary

/-- `_primaryKey`. -/
def TableDef.primaryKeyColumns (table : TableDef) : List String :=
  table.primaryKey.getD (getPrimaryKeyColumns table)

def getReadOnlyColumns (table : TableDef) : List String :=
  table.columnsWhere fun m => m.isReadOnly

def getAutoUpdateColumns (table : TableDef) : List String :=
  table.columnsWhere fun m => m.isAutoUpdate

end Vertz.Db
