import Vertz.Db.Sql.Select
import Vertz.Db.Sql.Tagged

/-!
# `Vertz.Db.Sql.Update`: the UPDATE and DELETE statement builders
-/

namespace Vertz.Db.Sql

open Vertz.Lib

/-- A value of the SET data: a parameter, or a column-relative SQL
expression (`DbExpr`). -/
inductive SetValue where
  | param (p : Param)
  | expr (build : SqlFragment → SqlFragment)

def isDbExpr : SetValue → Bool
  | .param _ => false
  | .expr _ => true

inductive Returning where
  | all
  | columns (names : List String)

structure UpdateOptions where
  table : String
  data : Record SetValue
  where_ : Option WhereFilter
  returning : Option Returning
  nowColumns : List String

structure SetClause (H : Type) where
  column : String
  value : SqlText H

/-- An UPDATE statement; `where_` is `none` when there is no WHERE. -/
structure UpdateSql (H : Type) where
  table : String
  sets : List (SetClause H)
  where_ : Option (List (Tok (Atom H)))
  returning : Option Returning

structure UpdateResult where
  sql : UpdateSql ℕ
  params : List Param

structure DeleteOptions where
  table : String
  where_ : Option WhereFilter
  returning : Option Returning

structure DeleteSql (H : Type) where
  table : String
  where_ : Option (List (Tok (Atom H)))
  returning : Option Returning

structure DeleteResult where
  sql : DeleteSql ℕ
  params : List Param

/-! ### Statement text -/

def SetClause.text {H : Type} (s : SetClause H) : SqlText H :=
  .text (quoted s.column ++ " = ") :: s.value

def whereText {H : Type} : Option (List (Tok (Atom H))) → SqlText H
  | none => []
  | some ts => .text " WHERE " :: clauseText ts

def returningText {H : Type} : Option Returning → SqlText H
  | none => []
  | some .all => [.text " RETURNING *"]
  | some (.columns names) =>
    [.text (" RETURNING " ++
      ", ".intercalate (names.map fun name => (buildColumnRef name none).render))]

def UpdateSql.text {H : Type} (s : UpdateSql H) : SqlText H :=
  .text ("UPDATE " ++ quoted s.table ++ " SET ") ::
    (SqlText.join ", " (s.sets.map SetClause.text) ++ whereText s.where_ ++
      returningText s.returning)

def DeleteSql.text {H : Type} (s : DeleteSql H) : SqlText H :=
  .text ("DELETE FROM " ++ quoted s.table) :: (whereText s.where_ ++ returningText s.returning)

/-! ### The builders -/

/-- `value === 'now'`. -/
def isNowSentinel : Param → Bool
  | .value (.str s) => s == "now"
  | _ => false

/-- One SET clause and the parameters it pushes, after `offset` others. -/
def buildSet (nowColumns : List String) (dialect : Dialect) (key : String) (value : SetValue)
    (offset : ℕ) : SetClause ℕ × List Param :=
  let snakeCol := camelToSnake key none
  match value with
  | .expr build =>
    let fragment := build ⟨quoted snakeCol, []⟩
    (⟨snakeCol, renumberParamsWithDialect fragment.sql offset⟩, fragment.params.map .value)
  | .param v =>
    if nowColumns.contains key && isNowSentinel v then (⟨snakeCol, [.text dialect.now]⟩, [])
    else (⟨snakeCol, [.hole (offset + 1)]⟩, [v])

/-- The SET loop over the data's entries. -/
def buildSets (nowColumns : List String) (dialect : Dialect) :
    List (String × SetValue) → List Param → List (SetClause ℕ) × List Param
  | [], allParams => ([], allParams)
  | (key, value) :: es, allParams =>
    let (clause, params) := buildSet nowColumns dialect key value allParams.length
    let (rest, allParams) := buildSets nowColumns dialect es (allParams ++ params)
    (clause :: rest, allParams)

/-- The WHERE of an UPDATE or DELETE: left out when its text is empty. -/
def buildStatementWhere (filter : Option WhereFilter) (offset : ℕ) (dialect : Dialect) :
    Except String (Option Clause × List Param) :=
  match filter with
  | none => .ok (none, [])
  | some f =>
    (buildWhere (some f) offset none dialect).bind fun result =>
      if result.sql.isEmpty then .ok (none, []) else .ok (some result.sql, result.params)

def buildUpdate (options : UpdateOptions) (dialect : Dialect) : Except String UpdateResult :=
  let (sets, allParams) := buildSets options.nowColumns dialect options.data.entries []
  (buildStatementWhere options.where_ allParams.length dialect).bind fun (clause, params) =>
    .ok ⟨⟨options.table, sets, clause, options.returning⟩, allParams ++ params⟩

def buildDelete (options : DeleteOptions) (dialect : Dialect) : Except String DeleteResult :=
  (buildStatementWhere options.where_ 0 dialect).bind fun (clause, params) =>
    .ok ⟨⟨options.table, clause, options.returning⟩, params⟩

end Vertz.Db.Sql
