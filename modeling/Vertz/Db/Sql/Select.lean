import Vertz.Db.Sql.Where

/-!
# `Vertz.Db.Sql.Select`: the SELECT statement builder

Column list, WHERE with an optional cursor condition, ORDER BY, LIMIT
and OFFSET. The statement is kept as its clauses (`SelectSql`);
`SelectSql.text` writes it out.
-/

namespace Vertz.Db.Sql

open Vertz.Lib

inductive SortDir where
  | asc
  | desc
  deriving DecidableEq, Repr

structure SelectOptions where
  table : String
  columns : Option (List String)
  where_ : Option WhereFilter
  orderBy : Option (Record SortDir)
  limit : Option ℚ
  offset : Option ℚ
  withCount : Bool
  cursor : Option (Record Js)
  take : Option ℚ
  casingOverrides : Option CasingOverrides

/-- An operand of the statement's WHERE: the filter's condition, or the
cursor's row comparison. -/
inductive WherePart (H : Type) where
  | condition (ts : List (Tok (Atom H)))
  | cursor (columns : List String) (greater : Bool) (hs : List H)

/-- A selected column and its alias. -/
structure SelectColumn where
  column : String
  asName : Option String
  deriving DecidableEq, Repr

/-- A SELECT statement; no columns is `*`. -/
structure SelectSql (H : Type) where
  table : String
  columns : List SelectColumn
  withCount : Bool
  wheres : List (WherePart H)
  orderBy : List (String × SortDir)
  limit : Option H
  offset : Option H

structure SelectResult where
  sql : SelectSql ℕ
  params : List Param

/-! ### Statement text -/

def quoted (column : String) : String := "\"" ++ column ++ "\""

def SelectColumn.render (c : SelectColumn) : String :=
  match c.asName with
  | none => quoted c.column
  | some name => quoted c.column ++ " AS " ++ quoted name

def SortDir.render : SortDir → String
  | .asc => "ASC"
  | .desc => "DESC"

/-- A single cursor column is compared bare, several as a row value. -/
def WherePart.text {H : Type} : WherePart H → SqlText H
  | .condition ts => clauseText ts
  | .cursor [c] greater [h] =>
    [.text (quoted c ++ (if greater then " > " else " < ")), .hole h]
  | .cursor cs greater hs =>
    .text ("(" ++ ", ".intercalate (cs.map quoted) ++ ")" ++
        (if greater then " > " else " < ") ++ "(")
      :: SqlText.join ", " (hs.map fun h => [.hole h]) ++ [.text ")"]

/-- `SELECT columns FROM table`. -/
def SelectSql.headText {H : Type} (s : SelectSql H) : String :=
  let columnList :=
    (if s.columns.isEmpty then "*" else ", ".intercalate (s.columns.map SelectColumn.render)) ++
      (if s.withCount then ", COUNT(*) OVER() AS \"totalCount\"" else "")
  "SELECT " ++ columnList ++ " FROM " ++ quoted s.table

def wheresText {H : Type} (wheres : List (WherePart H)) : SqlText H :=
  if wheres.isEmpty then []
  else .text " WHERE " :: SqlText.join " AND " (wheres.map WherePart.text)

def orderByText {H : Type} (orderBy : List (String × SortDir)) : SqlText H :=
  if orderBy.isEmpty then []
  else
    [.text (" ORDER BY " ++
      ", ".intercalate (orderBy.map fun o => quoted o.1 ++ " " ++ o.2.render))]

/-- ` LIMIT n` or ` OFFSET n`. -/
def numberText {H : Type} (keyword : String) : Option H → SqlText H
  | none => []
  | some h => [.text keyword, .hole h]

def SelectSql.text {H : Type} (s : SelectSql H) : SqlText H :=
  .text s.headText ::
    (wheresText s.wheres ++ orderByText s.orderBy ++ numberText " LIMIT " s.limit ++
      numberText " OFFSET " s.offset)

/-! ### The builder -/

def buildColumnRef (name : String) (casingOverrides : Option CasingOverrides) : SelectColumn :=
  let snakeName := camelToSnake name casingOverrides
  if snakeName = name then ⟨name, none⟩ else ⟨snakeName, some name⟩

/-- `orderBy?.[col] ?? 'asc'`. -/
def orderDir (orderBy : Option (Record SortDir)) (col : String) : SortDir :=
  ((orderBy.bind fun o => o.get? col).getD .asc)

/-- The composite cursor loop: each column pushes its value and a
placeholder for the parameter just pushed. -/
def cursorEntries (casingOverrides : Option CasingOverrides) :
    List (String × Js) → List Param → List String × List ℕ × List Param
  | [], allParams => ([], [], allParams)
  | (col, value) :: es, allParams =>
    let allParams := allParams ++ [.value value]
    let (cols, placeholders, rest) := cursorEntries casingOverrides es allParams
    (camelToSnake col casingOverrides :: cols, allParams.length :: placeholders, rest)

/-- The cursor condition. Several columns are compared in one direction,
that of the first. -/
def buildCursor (casingOverrides : Option CasingOverrides) (orderBy : Option (Record SortDir)) :
    List (String × Js) → List Param → List (WherePart ℕ) × List Param
  | [], allParams => ([], allParams)
  | [(col, value)], allParams =>
    let allParams := allParams ++ [.value value]
    ([.cursor [camelToSnake col casingOverrides] (orderDir orderBy col != .desc)
      [allParams.length]], allParams)
  | (firstCol, value) :: e :: es, allParams =>
    let (cols, placeholders, allParams) :=
      cursorEntries casingOverrides ((firstCol, value) :: e :: es) allParams
    ([.cursor cols (orderDir orderBy firstCol != .desc) placeholders], allParams)

/-- Explicit `orderBy` takes precedence; the cursor columns are the
fallback. -/
def buildOrderBy (casingOverrides : Option CasingOverrides) (orderBy : Option (Record SortDir))
    (cursor : Option (Record Js)) : List (String × SortDir) :=
  match orderBy with
  | some order => order.entries.map fun (col, dir) => (camelToSnake col casingOverrides, dir)
  | none =>
    match cursor with
    | some cursor => cursor.keys.map fun col => (camelToSnake col casingOverrides, .asc)
    | none => []

/-- LIMIT and OFFSET: push the number, use the placeholder of the
parameter just pushed. -/
def pushNumber (n : Option ℚ) (allParams : List Param) : Option ℕ × List Param :=
  match n with
  | none => (none, allParams)
  | some n =>
    let allParams := allParams ++ [.value (.num n)]
    (some allParams.length, allParams)

/-- The filter's part of the WHERE: left out when its text is empty. -/
def buildSelectWhere (filter : Option WhereFilter) (casingOverrides : Option CasingOverrides)
    (dialect : Dialect) : Except String (List (WherePart ℕ) × List Param) :=
  match filter with
  | none => .ok ([], [])
  | some f =>
    (buildWhere (some f) 0 casingOverrides dialect).bind fun result =>
      if result.sql.isEmpty then .ok ([], [])
      else .ok ([.condition result.sql], result.params)

def buildSelect (options : SelectOptions) (dialect : Dialect) : Except String SelectResult :=
  let casing := options.casingOverrides
  (buildSelectWhere options.where_ casing dialect).bind fun (filterParts, allParams) =>
    let cursorValues := (options.cursor.map Record.entries).getD []
    let (cursorParts, allParams) := buildCursor casing options.orderBy cursorValues allParams
    let (limit, allParams) := pushNumber (options.take.orElse fun _ => options.limit) allParams
    let (offset, allParams) := pushNumber options.offset allParams
    .ok
      { sql :=
          { table := options.table
            columns := (options.columns.getD []).map fun col => buildColumnRef col casing
            withCount := options.withCount
            wheres := filterParts ++ cursorParts
            orderBy := buildOrderBy casing options.orderBy options.cursor
            limit
            offset }
        params := allParams }

end Vertz.Db.Sql
