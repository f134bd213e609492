import Vertz.Lib.Keyset
import Vertz.Spec.Engine

/-!
# `Vertz.Spec.Fetch`: what a SELECT returns, and following its pages

A table is a list of rows. `fetch` runs a SELECT with its parameters in
place: the rows whose WHERE is true, sorted by ORDER BY with `NULL` where
the dialect puts it and ties in table order, then OFFSET and LIMIT.

A reader pages through a table by sending the last row's values of the
order columns and of a unique key as the next cursor (`pageAfter`).
`Complete` says that it gets every matching row, once and in order.
-/

namespace Vertz.Spec

open Vertz.Lib
open Vertz.Lib.Keyset
open Vertz.Db
open Vertz.Db.Sql

/-! ### WHERE -/

/-- A row comparison `(a, …) > (b, …)` or `<`: the first pair that
differs decides, and a `NULL` reached before that makes it unknown. -/
def compareRow (greater : Bool) : List (Js × Js) → Tri
  | [] => .no
  | (a, b) :: rest =>
    if a.isNullish || b.isNullish then .unknown
    else if a = b then compareRow greater rest
    else Tri.ofBool (if greater then decide (b < a) else decide (a < b))

/-- A row comparison of a WHERE: columns, direction, values. -/
structure Cursor where
  columns : List String
  greater : Bool
  values : List (Option Param)

def cursorValue (row : SqlRow) (c : Cursor) : Tri :=
  compareRow c.greater ((c.columns.map row).zip (c.values.map paramValue))

/-- The tokens of one part of a WHERE. -/
def partTokens : WherePart (Option Param) → List (Tok (Atom (Option Param) ⊕ Cursor))
  | .condition ts => ts.map (Tok.map .inl)
  | .cursor columns greater values => [.atom (.inr ⟨columns, greater, values⟩)]

/-- The WHERE as the database reads it: its parts with `AND` between
them, as one text. -/
def readWheres (wheres : List (WherePart (Option Param))) :
    Option (Cond (Atom (Option Param) ⊕ Cursor)) :=
  if wheres.isEmpty then some (.conj [])
  else Condition.parse (Tok.join .and (wheres.map partTokens))

/-- Whether a row passes a WHERE. -/
def admitted (engine : Engine) (c : Cond (Atom (Option Param) ⊕ Cursor)) (row : SqlRow) : Bool :=
  Cond.eval (Sum.elim (sqlValue engine row) (cursorValue row)) c == .yes

/-! ### ORDER BY -/

/-- Where a value is sorted: PostgreSQL sorts `NULL` after every value,
SQLite before. -/
def sortKey : DialectName → Js → ℕ ×ₗ Js
  | .postgres, v => if v.isNullish then toLex (1, .null) else toLex (0, v)
  | .sqlite, v => if v.isNullish then toLex (0, .null) else toLex (1, v)

/-- Sorted strictly earlier in a direction. -/
def sortsBefore (dir : SortDir) (a b : ℕ ×ₗ Js) : Bool :=
  match dir with
  | .asc => decide (a < b)
  | .desc => decide (b < a)

/-- `r` does not come after `s`: the first order column that tells them
apart decides. -/
def orderLe (dialect : DialectName) : List (String × SortDir) → SqlRow → SqlRow → Bool
  | [], _, _ => true
  | (column, dir) :: rest, r, s =>
    let a := sortKey dialect (r column)
    let b := sortKey dialect (s column)
    if a = b then orderLe dialect rest r s else sortsBefore dir a b

/-! ### SELECT -/

def partMap {H K : Type} (f : H → K) : WherePart H → WherePart K
  | .condition ts => .condition (ts.map (Tok.map (atomMap f)))
  | .cursor columns greater hs => .cursor columns greater (hs.map f)

def selectMap {H K : Type} (f : H → K) (s : SelectSql H) : SelectSql K :=
  { table := s.table
    columns := s.columns
    withCount := s.withCount
    wheres := s.wheres.map (partMap f)
    orderBy := s.orderBy
    limit := s.limit.map f
    offset := s.offset.map f }

/-- The statement with its parameters in place. -/
def boundSelect (r : SelectResult) : SelectSql (Option Param) :=
  selectMap (paramAt 0 r.params) r.sql

/-- A row count, as LIMIT and OFFSET take it. -/
def rowCount : Option Param → Option ℕ
  | some (.value (.num q)) => if q.den = 1 ∧ 0 ≤ q.num then some q.num.toNat else none
  | _ => none

/-- The rows a SELECT returns; `none` when the database refuses it. -/
def fetch (engine : Engine) (s : SelectSql (Option Param)) (table : List SqlRow) :
    Option (List SqlRow) :=
  (readWheres s.wheres).bind fun c =>
    let sorted := (table.filter (admitted engine c)).mergeSort (orderLe engine.dialect s.orderBy)
    (match s.offset with
      | none => some sorted
      | some h => (rowCount h).map fun n => sorted.drop n).bind fun rows =>
    match s.limit with
    | none => some rows
    | some h => (rowCount h).map fun n => rows.take n

/-! ### Columns a statement names -/

/-- The column a condition is about. -/
def atomColumn {H : Type} : Atom H → Option String
  | .const _ => none
  | .isNull c _ => some c.column
  | .binary c _ _ => some c.column
  | .inList c _ _ => some c.column

/-- Whether a condition only names columns of the table. -/
def knownAtom {H : Type} (columns : List String) (a : Atom H) : Bool :=
  (atomColumn a).all columns.contains

/-- The conditions among the tokens of a text. -/
def atoms {H : Type} (ts : List (Tok (Atom H))) : List (Atom H) := ts.filterMap Tok.atom?

/-- Whether a condition's text only names columns of the table. -/
def knownCondition {H : Type} (columns : List String) (ts : List (Tok (Atom H))) : Bool :=
  (atoms ts).all (knownAtom columns)

def knownPart {H : Type} (columns : List String) : WherePart H → Bool
  | .condition ts => knownCondition columns ts
  | .cursor cs _ _ => cs.all columns.contains

/-- Whether a statement only names columns of the table; a database
refuses one that does not. -/
def knownSelect {H : Type} (columns : List String) (s : SelectSql H) : Bool :=
  s.columns.all (fun c => columns.contains c.column) && s.wheres.all (knownPart columns) &&
    s.orderBy.all fun o => columns.contains o.1

/-! ### Pages -/

/-- The order columns, extended by the key where it is not one of them. -/
def cursorColumns (orderBy : Option (Record SortDir)) (key : String) : List String :=
  let columns := (orderBy.map Record.keys).getD []
  if columns.contains key then columns else columns ++ [key]

/-- The cursor a reader sends after a row. -/
def cursorAfter (options : SelectOptions) (key : String) (row : SqlRow) : Record Js :=
  .ofList ((cursorColumns options.orderBy key).map fun col =>
    (col, row (camelToSnake col options.casingOverrides)))

/-- The page after a row, or the first page. -/
def pageAfter (engine : Engine) (dialect : Dialect) (options : SelectOptions) (key : String)
    (table : List SqlRow) (after : Option SqlRow) : Option (List SqlRow) :=
  match buildSelect { options with cursor := after.map (cursorAfter options key) } dialect with
  | .error _ => none
  | .ok r => fetch engine (boundSelect r) table

/-- A table of which the key tells the rows apart and only the nullable
columns hold `NULL`. -/
structure Conforms (nullable : String → Bool) (key : String) (table : List SqlRow) : Prop where
  present : ∀ row ∈ table, ∀ c, nullable c = false → (row c).isNullish = false
  keyed : ∀ row ∈ table, (row key).isNullish = false
  unique : table.Pairwise fun r s => r key ≠ s key

/-- Whether a row matches the filter. -/
def filterMatches (engine : Engine) (overrides : Option CasingOverrides)
    (where_ : Option WhereFilter) (row : SqlRow) : Bool :=
  match where_ with
  | none => true
  | some f => filterValue (entryValue overrides (sqlAtom engine row)) f == .yes

/-- Whether the database can read the filter. -/
def Readable (dialect : Dialect) (overrides : Option CasingOverrides)
    (where_ : Option WhereFilter) : Prop :=
  (∃ r, buildWhere where_ 0 overrides dialect = .ok r) ∧
    ∀ f, where_ = some f → wellFormed f = true

/-- The order a SELECT asks for. -/
def orderOf (options : SelectOptions) : List (String × SortDir) :=
  buildOrderBy options.casingOverrides options.orderBy none

/-- Following the pages returns every matching row exactly once and in
order. -/
def Complete (engine : Engine) (dialect : Dialect) (options : SelectOptions) (key : String)
    (table : List SqlRow) : Prop :=
  ∃ rows, Follows (pageAfter engine dialect options key table) none rows ∧
    rows.Perm
      (table.filter (filterMatches engine options.casingOverrides options.where_)) ∧
    rows.Pairwise fun r s => orderLe engine.dialect (orderOf options) r s = true

/-! ### The orders a row comparison agrees with -/

/-- Up to the key, every order column that is not a repetition has the
direction `dir` and is never `NULL`. `seen` are the columns before. -/
def steady (nullable : String → Bool) (key : String) (dir : SortDir) :
    List String → List (String × SortDir) → Bool
  | _, [] => false
  | seen, (c, d) :: rest =>
    if seen.contains c then steady nullable key dir seen rest
    else d == dir && (c == key || (!nullable c && steady nullable key dir (c :: seen) rest))

/-- The direction of a cursor: that of the first order column. -/
def firstDir : List (String × SortDir) → SortDir
  | [] => .asc
  | (_, d) :: _ => d

/-- The order reaches the key in one direction, over columns that are
never `NULL`. -/
def Uniform (nullable : String → Bool) (key : String) (order : List (String × SortDir)) : Prop :=
  steady nullable key (firstDir order) [] order = true

end Vertz.Spec
