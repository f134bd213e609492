import Vertz.Server.Entity.CrudPipeline

/-!
# `Vertz.Server.Entity.ListPages`: the cursor of a listing

`list` answers a full page with a cursor, which the client sends back as
`after`: the last row's key as a text, or the JSON of the texts of its
key columns. The adapter makes a cursor object of it, and the database
reads each text as a value of the column it is compared with
(`ReadText`), so that `"10"` comes after `"9"` in a column of numbers.
-/

namespace Vertz.Server.Entity

open Vertz.Lib
open Vertz.Db
open Vertz.Db.Sql
open Vertz.Spec

/-! ### JSON of a key -/

def hexDigit (n : ℕ) : Char := if n < 10 then Char.ofNat (48 + n) else Char.ofNat (87 + n)

/-- How `JSON.stringify` writes a character of a text. -/
def jsonChar (c : Char) : List Char :=
  if c = '"' then ['\\', '"']
  else if c = '\\' then ['\\', '\\']
  else if c = '\n' then ['\\', 'n']
  else if c = '\r' then ['\\', 'r']
  else if c = '\t' then ['\\', 't']
  else if c.toNat = 8 then ['\\', 'b']
  else if c.toNat = 12 then ['\\', 'f']
  else if c.toNat < 32 then ['\\', 'u', '0', '0', hexDigit (c.toNat / 16), hexDigit (c.toNat % 16)]
  else [c]

def jsonText (s : String) : String := "\"" ++ String.ofList (s.toList.flatMap jsonChar) ++ "\""

/-- `JSON.stringify` of an object of texts. -/
def jsonObject (r : Record String) : String :=
  "\x7b" ++ ",".intercalate (r.entries.map fun (k, v) => jsonText k ++ ":" ++ jsonText v) ++ "\x7d"

/-! ### The cursor a page is answered with -/

def isCompositePk (table : TableDef) : Bool := decide (1 < (resolvePkColumns table).length)

/-- `String(lastRow[col])`. -/
def keyText (table : TableDef) (lastRow : SqlRow) (col : String) : String :=
  jsText (rowField (mapRow (getDefaultColumns table) lastRow) col)

/-- The cursor behind a row. -/
def rowCursor (table : TableDef) (lastRow : SqlRow) : String :=
  let pkColumns := resolvePkColumns table
  if isCompositePk table then
    jsonObject (.ofList (pkColumns.map fun col => (col, keyText table lastRow col)))
  else keyText table lastRow (pkColumns.headD "id")

/-- Only a full page has a next cursor. -/
def nextCursor (table : TableDef) (limit : ℚ) (rows : List SqlRow) : Option String :=
  if 0 < limit ∧ (rows.length : ℚ) = limit then rows.getLast?.map (rowCursor table) else none

/-! ### The page behind a cursor -/

/-- What a database makes of a text it compares with a column. -/
abbrev ReadText := String → String → Js

/-- The cursor as the database compares it. -/
def readCursor (readText : ReadText) (cursor : Record Js) : Record Js :=
  .ofList (cursor.entries.map fun (col, v) =>
    (col, match v with
      | .str s => readText (camelToSnake col none) s
      | v => v))

/-- The SELECT behind `listAndCount`. -/
def pageOptions (table : TableDef) (query : ListQuery) (where_ : Option WhereFilter)
    (cursor : Option (Record Js)) : SelectOptions where
  table := table.name
  columns := some (getDefaultColumns table)
  where_
  orderBy := query.orderBy
  limit := query.limit
  offset := none
  withCount := true
  cursor
  take := none
  casingOverrides := none

/-- The rows of a page. -/
def adapterPage (b : Backend) (readText : ReadText) (table : TableDef) (query : ListQuery)
    (store : Store) : Except String (List SqlRow) :=
  (optionalCursor b query.after).bind fun cursor =>
  (optionalFilter query.where_).bind fun where_ =>
    runSelect b table (pageOptions table query where_ (cursor.map (readCursor readText))) store

section

variable (b : Backend) (readText : ReadText) (entity : EntityDefinition)
  (options : CrudPipelineOptions)

/-- The rows and the next cursor `list` answers. -/
def listPage (ctx : BaseContext) (opts : ListOptions) (store : Store) :
    Except EntityError (List SqlRow × Option String) :=
  match listAccess entity options ctx with
  | .error message => .error (.forbidden message)
  | .ok _ =>
    ((adapterPage b readText entity.table (listQuery entity options ctx opts store)
      store).mapError .thrown).map fun rows =>
        (rows, nextCursor entity.table (listLimit opts) rows)

/-- The page behind a cursor, when there is one. -/
def pageFrom (ctx : BaseContext) (opts : ListOptions) (store : Store) (after : Option String) :
    Option (List SqlRow × Option String) :=
  (listPage b readText entity options ctx { opts with after } store).toOption

end

end Vertz.Server.Entity
